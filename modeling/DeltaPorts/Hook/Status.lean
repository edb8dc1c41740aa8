import DeltaPorts.Hook.PkgBuild

/-!
# The life of a `STATUS` file

`lastSucc` takes the columns from the 15th on, where `writeStatus` has put the version.
-/

set_option autoImplicit false

namespace DeltaPorts.Hook

open Shell (Text)

/-- No whitespace, and short enough for the columns that are cut out. -/
structure IsVersion (v : Text) : Prop where
  plain : Awk.Plain v
  length : v.length ≤ 66

def successMark : Text := "Last success:".toList

/-- The lines after the first, with the version of the last success. -/
inductive Succeeded : List Text → Text → Prop where
  | none {rest : List Text} : (∀ line ∈ rest, ¬ successMark <:+: line) → Succeeded rest []
  | bare {before after : List Text} : (∀ line ∈ before ++ after, ¬ successMark <:+: line) →
      Succeeded (before ++ successMark :: after) []
  | version {before after : List Text} {v : Text} :
      (∀ line ∈ before ++ after, ¬ successMark <:+: line) → IsVersion v →
      Succeeded (before ++ (successMark ++ ' ' :: v) :: after) v

inductive StatusType : Text → Prop where
  | port : StatusType "PORT".toList
  | dport : StatusType "DPORT".toList
  | lock : StatusType "LOCK".toList

/-- The file, or that there is none, with the type and the last success it stands for. -/
inductive Stands : Option (List Text) → Text → Text → Prop where
  | missing : Stands none "PORT".toList []
  | file {type success : Text} {rest : List Text} : StatusType type →
      (∀ line ∈ rest, isType line = false) → Succeeded rest success →
      Stands (some (type :: rest)) type success

theorem StatusType.plain {type : Text} (h : StatusType type) : Awk.Plain type ∧ type ≠ [] := by
  cases h <;> exact ⟨by decide, by decide⟩

theorem StatusType.isType {type : Text} (h : StatusType type) : isType type = true := by
  cases h <;> rfl

theorem StatusType.not_marked {type : Text} (h : StatusType type) :
    ¬ successMark <:+: type := by
  cases h <;> decide

theorem typeOf_eq {type : Text} {rest : List Text} (h : StatusType type)
    (hrest : ∀ line ∈ rest, isType line = false) : typeOf (type :: rest) = type := by
  have hnone : rest.filter isType = [] := by
    rw [List.filter_eq_nil_iff]
    intro line hline
    rw [hrest line hline]
    exact Bool.false_ne_true
  unfold typeOf
  rw [List.filter_cons_of_pos h.isType, hnone]
  exact Shell.captured_singleton (h.plain.1.newline_not_mem)

theorem filter_marked {before after : List Text} {line : Text}
    (h : ∀ l ∈ before ++ after, ¬ successMark <:+: l) (hline : successMark <:+: line) :
    (before ++ line :: after).filter (fun l => successMark <:+: l) = [line] := by
  have hnone : ∀ ls ⊆ before ++ after, ls.filter (fun l => successMark <:+: l) = [] := by
    intro ls hls
    rw [List.filter_eq_nil_iff]
    intro l hl
    rw [decide_eq_true_iff]
    exact h l (hls hl)
  have hself : (line :: after).filter (fun l => successMark <:+: l) =
      line :: after.filter fun l => successMark <:+: l :=
    List.filter_cons_of_pos (decide_eq_true hline)
  rw [List.filter_append, hself, hnone before (List.subset_append_left before after),
    hnone after (List.subset_append_right before after)]
  rfl

theorem lastSucc_eq {type success : Text} {rest : List Text} (h : StatusType type)
    (hrest : Succeeded rest success) : lastSucc (type :: rest) = success := by
  have hfirst : (type :: rest).filter (fun l => successMark <:+: l) =
      rest.filter fun l => successMark <:+: l :=
    List.filter_cons_of_neg (by rw [decide_eq_true_iff]; exact h.not_marked)
  unfold lastSucc
  rw [show "Last success:".toList = successMark from rfl, hfirst]
  cases hrest with
  | none hnone =>
    have hnil : rest.filter (fun l => successMark <:+: l) = [] := by
      rw [List.filter_eq_nil_iff]
      intro l hl
      rw [decide_eq_true_iff]
      exact hnone l hl
    rw [hnil]
    rfl
  | bare hothers =>
    rw [filter_marked hothers List.infix_rfl]
    rfl
  | version hothers hv =>
    have hmark : successMark <:+: successMark ++ ' ' :: success := (List.prefix_append _ _).isInfix
    have hcut : ((successMark ++ ' ' :: success).drop 14).take 66 = success := by
      have hdrop : (successMark ++ ' ' :: success).drop 14 = success := rfl
      rw [hdrop, List.take_of_length_le hv.length]
    rw [filter_marked hothers hmark, List.map_singleton, hcut]
    exact Shell.captured_singleton (hv.plain.newline_not_mem)

def attemptLine (v : Text) : Text := "Last attempt: ".toList ++ v

def successLine (v : Text) : Text := successMark ++ ' ' :: v

theorem take_eq_of_startsWith {w l rest : Text} (h : w <+: l ++ rest) :
    w.take l.length = l.take w.length := by
  rw [List.prefix_iff_eq_take] at h
  have htake : w.take l.length = ((l ++ rest).take w.length).take l.length := by rw [← h]
  rw [htake, List.take_take, Nat.min_comm, ← List.take_take, List.take_left]

theorem not_marked_attemptLine {v : Text} (hv : Awk.Plain v) :
    ¬ successMark <:+: attemptLine v := by
  intro h
  obtain ⟨before, after, heq⟩ := h
  have hblank : ' ' ∉ v := by
    intro hmem
    have hspace := hv ' ' hmem
    cases hspace
  have hpre : successMark <+: (attemptLine v).drop before.length := by
    rw [← heq, List.append_assoc, List.drop_left]
    exact List.prefix_append _ _
  have hdrop : (attemptLine v).drop before.length =
      "Last attempt: ".toList.drop before.length ++ v.drop (before.length - 14) := List.drop_append
  rw [hdrop] at hpre
  by_cases hlen : 14 ≤ before.length
  · -- the mark has a space in it, and there is none left
    have hnil : "Last attempt: ".toList.drop before.length = [] := List.drop_of_length_le hlen
    rw [hnil, List.nil_append] at hpre
    exact hblank (List.mem_of_mem_drop (hpre.subset (by decide)))
  · have hnowhere : ∀ k < 14, successMark.take ("Last attempt: ".toList.drop k).length ≠
        ("Last attempt: ".toList.drop k).take successMark.length := by decide
    exact hnowhere before.length (by omega) (take_eq_of_startsWith hpre)

theorem attemptLine_not_type (v : Text) : isType (attemptLine v) = false := rfl

theorem successLine_not_type (v : Text) : isType (successLine v) = false := rfl

theorem echo_type {type : Text} (h : StatusType type) : Shell.echo type = type := by
  unfold Shell.echo
  rw [Awk.words_plain h.plain.1 h.plain.2]
  exact List.intercalate_singleton

theorem writeStatus_eq {type attempt success : Text} (h : StatusType type)
    (hattempt : Awk.Plain attempt) (hsuccess : Awk.Plain success) :
    writeStatus type attempt success = [type, attemptLine attempt, successLine success] := by
  have hlines : ∀ l : Text, '\n' ∉ l → Shell.lines l = [l] := fun l => Shell.lines_of_not_mem
  have hfirst : '\n' ∉ "Last attempt: ".toList ++ attempt := by
    rw [List.mem_append, not_or]
    exact ⟨by decide, hattempt.newline_not_mem⟩
  have hsecond : '\n' ∉ "Last success: ".toList ++ success := by
    rw [List.mem_append, not_or]
    exact ⟨by decide, hsuccess.newline_not_mem⟩
  unfold writeStatus
  rw [echo_type h, hlines _ hfirst, hlines _ hsecond]
  rfl

/-- The version of the last success after the event. -/
def successAfter (success : Text) (e : Event) : Text :=
  match e.result with
  | .failed => success
  | .success => pkgv e.pkgname

/-- The version of the last success of the run, or what the file named before. -/
def lastSuccess (events : List Event) (success : Text) : Text :=
  ((events.filter fun e => e.result = .success).getLast?).elim success fun e => version e.pkgname

theorem lastSuccess_concat (events : List Event) {e : Event} (hv : Awk.Plain (version e.pkgname))
    (success : Text) :
    lastSuccess (events ++ [e]) success = successAfter (lastSuccess events success) e := by
  unfold lastSuccess successAfter
  rw [List.filter_append, pkgv_eq hv]
  cases hresult : e.result with
  | failed => simp [hresult]
  | success => simp [hresult]

theorem Succeeded.isVersion {rest : List Text} {success : Text} (h : Succeeded rest success) :
    IsVersion success := by
  have hnil : IsVersion [] := ⟨fun c hc => absurd hc List.not_mem_nil, Nat.zero_le _⟩
  cases h with
  | none _ => exact hnil
  | bare _ => exact hnil
  | version _ hv => exact hv

theorem Stands.type {status : Option (List Text)} {type success : Text}
    (h : Stands status type success) : StatusType type ∧ IsVersion success := by
  cases h with
  | missing => exact ⟨.port, fun c hc => absurd hc List.not_mem_nil, Nat.zero_le _⟩
  | file htype _ hrest => exact ⟨htype, hrest.isVersion⟩

theorem newStatus_eq {status : Option (List Text)} {type success : Text}
    (h : Stands status type success) (e : Event) (hv : IsVersion (pkgv e.pkgname)) :
    newStatus e status =
      [type, attemptLine (pkgv e.pkgname), successLine (successAfter success e)] := by
  obtain ⟨htype, hsuccess⟩ := h.type
  have hfailed := writeStatus_eq htype hv.plain hsuccess.plain
  have hsucceeded := writeStatus_eq htype hv.plain hv.plain
  unfold newStatus successAfter
  cases h with
  | missing =>
    cases e.result with
    | failed => exact hfailed
    | success => exact hsucceeded
  | file _ hnone hrest =>
    cases e.result with
    | failed =>
      simp only [typeOf_eq htype hnone, lastSucc_eq htype hrest]
      exact hfailed
    | success =>
      simp only [typeOf_eq htype hnone]
      exact hsucceeded

theorem stands_written {type attempt success : Text} (h : StatusType type)
    (hattempt : Awk.Plain attempt) (hsuccess : IsVersion success) :
    Stands (some [type, attemptLine attempt, successLine success]) type success := by
  refine .file h ?_ ?_
  · intro line hline
    rcases List.mem_cons.mp hline with rfl | hline
    · exact attemptLine_not_type attempt
    · rw [List.mem_singleton.mp hline]
      exact successLine_not_type success
  · have hothers : ∀ line ∈ [attemptLine attempt] ++ [], ¬ successMark <:+: line := by
      intro line hline
      rw [List.append_nil, List.mem_singleton] at hline
      rw [hline]
      exact not_marked_attemptLine hattempt
    exact .version hothers hsuccess

theorem stands_run {origin : Text} {s : State} {type success : Text}
    (h : Stands s.status type success) {e : Event} (hv : IsVersion (pkgv e.pkgname)) :
    Stands (run origin s e).status type (successAfter success e) := by
  obtain ⟨htype, hsuccess⟩ := h.type
  rw [run_status, newStatus_eq h e hv]
  apply stands_written htype hv.plain
  unfold successAfter
  cases e.result with
  | failed => exact hsuccess
  | success => exact hv

theorem stands_of_run {origin : Text} {s : State} {type success : Text} {events : List Event}
    (h : Stands s.status type success) (hversions : ∀ e ∈ events, IsVersion (version e.pkgname)) :
    Stands (events.foldl (run origin) s).status type (lastSuccess events success) := by
  induction events using List.reverseRecOn with
  | nil => exact h
  | append_singleton events e ih =>
    have hbefore := ih fun e' he' => hversions e' (List.mem_append_left [e] he')
    have hv := hversions e (List.mem_append_right events List.mem_cons_self)
    rw [lastSuccess_concat events hv.plain, List.foldl_append, List.foldl_cons, List.foldl_nil]
    rw [← pkgv_eq hv.plain] at hv
    exact stands_run hbefore hv

theorem status_after_event {origin : Text} {s : State} {type success : Text}
    {events : List Event} {e : Event} (h : Stands s.status type success)
    (hversions : ∀ e' ∈ events ++ [e], IsVersion (version e'.pkgname)) :
    ((events ++ [e]).foldl (run origin) s).status =
      some ([type, "Last attempt: ".toList ++ version e.pkgname,
        "Last success: ".toList ++ lastSuccess (events ++ [e]) success] : List Text) := by
  have hbefore : Stands (events.foldl (run origin) s).status type (lastSuccess events success) :=
    stands_of_run h fun e' he' => hversions e' (List.mem_append_left [e] he')
  have hv := hversions e (List.mem_append_right events List.mem_cons_self)
  rw [List.foldl_append, List.foldl_cons, List.foldl_nil, lastSuccess_concat events hv.plain,
    ← pkgv_eq hv.plain, run_status, newStatus_eq hbefore e (by rwa [pkgv_eq hv.plain])]
  rfl

def lockedStatus : List Text := ["LOCK".toList, "Last success: 0.9".toList]

def failedOnce : Event := ⟨.failed, "a-1.0".toList, FileTree.empty⟩

theorem stands_lockedStatus : Stands (some lockedStatus) "LOCK".toList "0.9".toList := by
  refine .file .lock ?_ ?_
  · intro line hline
    rw [List.mem_singleton.mp hline]
    rfl
  · exact @Succeeded.version [] [] _ (fun line hline => absurd hline List.not_mem_nil)
      ⟨by decide, by decide⟩

theorem status_of_lockedStatus :
    ([failedOnce].foldl (run "net/a".toList) ⟨some lockedStatus, none, none, none⟩).status =
      some (["LOCK".toList, "Last attempt: ".toList ++ version failedOnce.pkgname,
        "Last success: ".toList ++ lastSuccess [failedOnce] "0.9".toList] : List Text) := by
  have hversion : IsVersion (version failedOnce.pkgname) := ⟨by decide, by decide⟩
  have hstart : Stands (State.status ⟨some lockedStatus, none, none, none⟩) "LOCK".toList
      "0.9".toList := stands_lockedStatus
  apply @status_after_event _ _ _ _ [] _ hstart
  intro e he
  rw [List.mem_singleton.mp he]
  exact hversion

end DeltaPorts.Hook
