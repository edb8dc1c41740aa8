import DeltaPorts.Portsnap.CommandLine
import DeltaPorts.Library.Shell
import Mathlib.Data.Bool.AllAny

/-!
# The parameters of portsnap

What `get_params` makes of the command line, of the configuration file and of the defaults. A
parameter is what the command line says, else what the last line of the configuration file says,
else the default; the directories that are refused, and the index files that are built, are those
of all the lines that name some.
-/

set_option autoImplicit false

namespace DeltaPorts.Portsnap.Parameters

open LineTools (Text lines unlines lines_unlines)
open Shell (Globbing unwords)

def Valued.variable : Valued → Text
  | .workdir => "WORKDIR".toList
  | .conffile => "CONFFILE".toList
  | .keyprint => "KEYPRINT".toList
  | .localdesc => "LOCALDESC".toList
  | .portsdir => "PORTSDIR".toList
  | .servername => "SERVERNAME".toList

/-- The value of a variable, or another one if that is empty. -/
def orElse (x y : Text) : Text := if x = [] then y else x

/-- The characters that the shell takes as they are. -/
def isLiteral (c : Char) : Bool :=
  c.isAlphanum || c ∈ "/._-+,:@%=".toList

def Literal (x : Text) : Prop := ∀ c ∈ x, isLiteral c = true

instance (x : Text) : Decidable (Literal x) := List.decidableBAll (fun c => isLiteral c = true) x

/-- A line without quotes and backslashes, and whose words are no options of `echo`. -/
def Ordinary (l : Text) : Prop :=
  (∀ c ∈ l, c.toNat ≠ 34 ∧ c.toNat ≠ 39 ∧ c.toNat ≠ 92) ∧ ∀ w ∈ Awk.words l, w.head? ≠ some '-'

/-- What becomes of texts that are read once more. -/
structure Evaluation where
  /-- The variable after `eval X=text`. -/
  assigned : Text → Text
  /-- What `xargs echo` prints. -/
  xargsEcho : List Text → Text
  /-- Up to this size `xargs` starts one `echo` for all words. -/
  limit : Nat
  assigned_literal : ∀ x, Literal x → assigned x = x
  echo_ordinary : ∀ ls, (unlines ls).length ≤ limit → (∀ l ∈ ls, Ordinary l) →
    xargsEcho ls = unwords (ls.flatMap Awk.words)

variable (e : Evaluation)

/-- `grep "^${X}=" | cut -f 2- -d '=' | tail -1`, assigned by `eval`. -/
def confValue (conf : List Text) (o : Valued) : Text :=
  let found := conf.filter (o.variable ++ ['=']).isPrefixOf
  e.assigned ((found.map fun l => (l.dropWhile (· ≠ '=')).tail).getLast?.getD [])

/-- `[[:space:]]` -/
def isSpace (c : Char) : Bool :=
  c = ' ' || c = '\t' || c = '\r' || c.toNat = 11 || c.toNat = 12

/-- `grep -E "^WORD[[:space:]]"` -/
def startsWith (word l : Text) : Bool :=
  word.isPrefixOf l && (l.drop word.length).head?.any isSpace

/-- `tr ' ' '|'` -/
def bars (l : Text) : Text := l.map fun c => if c = ' ' then '|' else c

def confRefuse (conf : List Text) (p : Params) : Params :=
  let found := conf.filter (startsWith "REFUSE".toList)
  if found = [] then p
  else
    { p with
      refuse := "^(".toList ++ (bars (e.xargsEcho (found.map (List.drop 6))) ++ ")".toList) }

def confIndex (conf : List Text) (p : Params) : Params :=
  let found := conf.filter (startsWith "INDEX".toList)
  if found = [] then p
  else { p with indexpairs := e.xargsEcho (found.map fun l => bars (l.drop 6)) }

def confKeys : List Valued := [.keyprint, .workdir, .portsdir, .servername]

/-- `none` is a file that is not readable. -/
def parseConffile (conf : Option Text) (p : Params) : Params :=
  match conf with
  | none => p
  | some conf =>
    let conf := lines conf
    let p := confKeys.foldl
      (fun p o => if o.get p = [] then o.set (confValue e conf o) p else p) p
    confIndex e conf (confRefuse e conf p)

def defaultConffile (p : Params) : Params :=
  { p with conffile := orElse p.conffile "/usr/local/etc/portsnap.conf".toList }

def defaultParams (p : Params) : Params :=
  { p with
    quietredir := orElse p.quietredir "/dev/null".toList
    quietflag := orElse p.quietflag "-q".toList
    statsredir := orElse p.statsredir "/dev/stdout".toList
    workdir := orElse p.workdir "/var/db/portsnap".toList
    portsdir := orElse p.portsdir "/usr/ports".toList
    ndebug := orElse p.ndebug "-n".toList
    localdesc := orElse p.localdesc "/dev/null".toList }

/-- The ways to end without parameters. -/
inductive Stop where
  | usage
  | unreadable (conffile : Text)

/-- `$@` without quotes. -/
def expanded (g : Globbing) (args : List Text) : List Text :=
  (args.flatMap Awk.words).flatMap g.expand

/-- `getParams` for the readable files and the `INDEXPAIRS` of the environment. -/
def getParams (g : Globbing) (files : Text → Option Text) (indexpairs : Text)
    (args : List Text) : Except Stop Params :=
  match parseCmdline (initParams indexpairs) (expanded g (expanded g args)) with
  | none => .error .usage
  | some p =>
    if p.conffile ≠ [] ∧ files p.conffile = none then .error (.unreadable p.conffile)
    else
      let p := defaultConffile p
      .ok (defaultParams (parseConffile e (files p.conffile) p))

inductive ConfLine where
  /-- `X=v` -/
  | set (o : Valued) (v : Text)
  /-- `REFUSE w v ...` -/
  | refuse (w : Text) (ws : List Text)
  /-- `INDEX file describe` -/
  | index (file describe : Text)
  | other (l : Text)

/-- A word that the programs leave as it is. -/
structure IsWord (w : Text) : Prop where
  plain : Awk.Plain w
  ne_nil : w ≠ []
  unquoted : ∀ c ∈ w, c.toNat ≠ 34 ∧ c.toNat ≠ 39 ∧ c.toNat ≠ 92
  noOption : w.head? ≠ some '-'

def ConfLine.text : ConfLine → Text
  | .set o v => o.variable ++ '=' :: v
  | .refuse w ws => "REFUSE ".toList ++ unwords (w :: ws)
  | .index file describe => "INDEX ".toList ++ unwords [file, describe]
  | .other l => l

theorem text_set (o : Valued) (v : Text) : (ConfLine.set o v).text = o.variable ++ '=' :: v := rfl

theorem text_refuse (w : Text) (ws : List Text) :
    (ConfLine.refuse w ws).text = "REFUSE ".toList ++ unwords (w :: ws) := rfl

theorem text_index (file describe : Text) :
    (ConfLine.index file describe).text = "INDEX ".toList ++ unwords [file, describe] := rfl

def ConfLine.Valid : ConfLine → Prop
  | .set o v => o ∈ confKeys ∧ Literal v
  | .refuse w ws => ∀ v ∈ w :: ws, IsWord v
  | .index file describe => IsWord file ∧ IsWord describe
  | .other l => '\n' ∉ l ∧ (∀ o ∈ confKeys, (o.variable ++ ['=']).isPrefixOf l = false) ∧
      startsWith "REFUSE".toList l = false ∧ startsWith "INDEX".toList l = false

structure ConfFile where
  lines : List ConfLine
  valid : ∀ l ∈ lines, l.Valid

def ConfFile.text (conf : ConfFile) : Text := unlines (conf.lines.map ConfLine.text)

def ConfLine.value (o : Valued) : ConfLine → Option Text
  | .set o' v => if o' = o then some v else none
  | _ => none

def ConfLine.refused : ConfLine → List Text
  | .refuse w ws => w :: ws
  | _ => []

def ConfLine.pair : ConfLine → Option Text
  | .index file describe => some (file ++ '|' :: describe)
  | _ => none

/-- The last line counts. -/
def ConfFile.value (conf : ConfFile) (o : Valued) : Text :=
  (conf.lines.filterMap (ConfLine.value o)).getLast?.getD []

def ConfFile.refused (conf : ConfFile) : List Text := conf.lines.flatMap ConfLine.refused

def ConfFile.pairs (conf : ConfFile) : List Text := conf.lines.filterMap ConfLine.pair

/-- The regular expression for the directories that are refused. -/
def refuseExpression (ws : List Text) : Text :=
  if ws = [] then [] else "^(".toList ++ (List.intercalate ['|'] ws ++ ")".toList)

/-- The parameters that the command line, the configuration file and the defaults give. -/
def meant (indexpairs : Text) (cl : CommandLine) (conf : Option ConfFile) : Params :=
  let p := said indexpairs cl.items cl.path
  let value o := (conf.map (·.value o)).getD []
  let pairs := (conf.map ConfFile.pairs).getD []
  { p with
    keyprint := orElse p.keyprint (value .keyprint)
    workdir := orElse p.workdir (orElse (value .workdir) "/var/db/portsnap".toList)
    portsdir := orElse p.portsdir (orElse (value .portsdir) "/usr/ports".toList)
    conffile := orElse p.conffile "/usr/local/etc/portsnap.conf".toList
    servername := orElse p.servername (value .servername)
    quietredir := orElse p.quietredir "/dev/null".toList
    quietflag := orElse p.quietflag "-q".toList
    statsredir := orElse p.statsredir "/dev/stdout".toList
    ndebug := orElse p.ndebug "-n".toList
    localdesc := orElse p.localdesc "/dev/null".toList
    refuse := refuseExpression ((conf.map ConfFile.refused).getD [])
    indexpairs := if pairs = [] then indexpairs else unwords pairs }

section Lines

variable {l : ConfLine} {o : Valued} {conf : ConfFile}

theorem literal_not_blank {c : Char} (h : isLiteral c = true) : Awk.isBlank c = false := by
  by_contra hne
  have hblank : Awk.isBlank c = true := by simpa using hne
  simp only [Awk.isBlank, Bool.or_eq_true, decide_eq_true_eq] at hblank
  rcases hblank with (rfl | rfl) | rfl <;> revert h <;> decide

theorem Literal.newline_not_mem {x : Text} (h : Literal x) : '\n' ∉ x := by
  intro hmem
  have hblank := literal_not_blank (h '\n' hmem)
  cases hblank

theorem newline_not_mem_unwords {ws : List Text} (h : ∀ w ∈ ws, IsWord w) :
    '\n' ∉ unwords ws := by
  intro hmem
  rcases Shell.of_mem_intercalate hmem with hmem | ⟨w, hw, hmem⟩
  · exact absurd hmem (by decide)
  · exact (h w hw).plain.newline_not_mem hmem

theorem newline_not_mem_text (h : l.Valid) : '\n' ∉ l.text := by
  have hword : ∀ o : Valued, '\n' ∉ o.variable := by
    intro o
    cases o <;> decide
  cases l with
  | set o v =>
    rw [text_set, List.mem_append, List.mem_cons, not_or, not_or]
    exact ⟨hword o, by decide, h.2.newline_not_mem⟩
  | refuse w ws =>
    rw [text_refuse, List.mem_append, not_or]
    exact ⟨by decide, newline_not_mem_unwords h⟩
  | index file describe =>
    rw [text_index, List.mem_append, not_or]
    refine ⟨by decide, newline_not_mem_unwords fun w hw => ?_⟩
    rcases List.mem_cons.mp hw with rfl | hw
    · exact h.1
    · rw [List.mem_singleton.mp hw]
      exact h.2
  | other l => exact h.1

theorem lines_text (conf : ConfFile) : lines conf.text = conf.lines.map ConfLine.text := by
  refine lines_unlines fun l hl => ?_
  obtain ⟨l', hl', rfl⟩ := List.mem_map.mp hl
  exact newline_not_mem_text (conf.valid l' hl')

theorem dropWhile_variable (o : Valued) (v : Text) :
    (o.variable ++ '=' :: v).dropWhile (· ≠ '=') = '=' :: v := by
  have hword : ∀ c ∈ o.variable, decide (c ≠ '=') = true :=
    List.all_eq_true.mp (by cases o <;> rfl)
  rw [List.dropWhile_append_of_pos hword, List.dropWhile_cons_of_neg (by decide)]

/-- Two settings begin alike only if they set the same variable. -/
theorem isPrefixOf_variable (o o' : Valued) (v : Text) :
    (o.variable ++ ['=']).isPrefixOf (o'.variable ++ '=' :: v) = decide (o' = o) := by
  by_cases heq : o' = o
  · rw [heq, decide_eq_true rfl, List.isPrefixOf_iff_prefix, List.append_cons o.variable '=' v]
    exact List.prefix_append (o.variable ++ ['=']) v
  · rw [decide_eq_false heq, ← Bool.not_eq_true, List.isPrefixOf_iff_prefix]
    rintro ⟨u, hu⟩
    rw [List.append_assoc, List.singleton_append] at hu
    have htake := congrArg (List.takeWhile (· ≠ '=')) hu
    have hword : ∀ o : Valued, ∀ v : Text,
        (o.variable ++ '=' :: v).takeWhile (· ≠ '=') = o.variable := by
      intro o v
      have hword : ∀ c ∈ o.variable, decide (c ≠ '=') = true :=
        List.all_eq_true.mp (by cases o <;> rfl)
      rw [List.takeWhile_append_of_pos hword, List.takeWhile_cons_of_neg (by decide),
        List.append_nil]
    have hinjective : ∀ o o' : Valued, o.variable = o'.variable → o' = o := by
      intro o o'
      cases o <;> cases o' <;> decide
    rw [hword, hword] at htake
    exact heq (hinjective o o' htake)

theorem not_isPrefixOf_keyword (o : Valued) {c : Char} (hc : c = 'R' ∨ c = 'I') (x : Text) :
    (o.variable ++ ['=']).isPrefixOf (c :: x) = false := by
  have hhead : ∃ d y, o.variable = d :: y ∧ d ≠ 'R' ∧ d ≠ 'I' := by
    cases o <;> exact ⟨_, _, rfl, by decide, by decide⟩
  obtain ⟨d, y, hvariable, hR, hI⟩ := hhead
  have hne : d ≠ c := by
    rcases hc with rfl | rfl
    · exact hR
    · exact hI
  rw [hvariable, List.cons_append, List.isPrefixOf_cons_cons, Bool.and_eq_false_iff]
  exact .inl (beq_false_of_ne hne)

/-- What `grep` and `cut` find of one line. -/
theorem value_eq (ho : o ∈ confKeys) (h : l.Valid) :
    (if (o.variable ++ ['=']).isPrefixOf l.text = true then
      some ((l.text.dropWhile (· ≠ '=')).tail) else none) = l.value o := by
  cases l with
  | set o' v =>
    rw [text_set, isPrefixOf_variable, dropWhile_variable, ConfLine.value, List.tail_cons]
    by_cases heq : o' = o
    · rw [if_pos heq, if_pos (decide_eq_true heq)]
    · rw [if_neg heq, decide_eq_false heq, if_neg Bool.false_ne_true]
  | refuse w ws =>
    have hnot : (o.variable ++ ['=']).isPrefixOf (ConfLine.refuse w ws).text = false :=
      not_isPrefixOf_keyword o (.inl rfl) _
    rw [hnot, if_neg Bool.false_ne_true]
    rfl
  | index file describe =>
    have hnot : (o.variable ++ ['=']).isPrefixOf (ConfLine.index file describe).text = false :=
      not_isPrefixOf_keyword o (.inr rfl) _
    rw [hnot, if_neg Bool.false_ne_true]
    rfl
  | other l =>
    have hother : (o.variable ++ ['=']).isPrefixOf (ConfLine.other l).text = false := h.2.1 o ho
    rw [hother, if_neg Bool.false_ne_true]
    rfl

/-- The last setting of a variable. -/
theorem confValue_text (conf : ConfFile) (ho : o ∈ confKeys) :
    confValue e (lines conf.text) o = conf.value o := by
  have hfound : ((lines conf.text).filter (o.variable ++ ['=']).isPrefixOf).map
      (fun l => (l.dropWhile (· ≠ '=')).tail) = conf.lines.filterMap (ConfLine.value o) := by
    rw [lines_text, ← List.filterMap_eq_map, List.filterMap_filter, List.filterMap_map]
    exact List.filterMap_congr fun l hl => value_eq ho (conf.valid l hl)
  have hliteral : Literal (conf.value o) := by
    unfold ConfFile.value
    cases hlast : (conf.lines.filterMap (ConfLine.value o)).getLast? with
    | none => exact nofun
    | some v =>
      obtain ⟨l, hl, hvalue⟩ := List.mem_filterMap.mp (List.mem_of_getLast? hlast)
      cases l with
      | set o' v' =>
        rw [ConfLine.value] at hvalue
        split at hvalue
        · rw [Option.getD_some, ← Option.some.inj hvalue]
          exact (conf.valid _ hl).2
        · cases hvalue
      | _ => cases hvalue
  unfold confValue
  dsimp only
  rw [hfound]
  exact e.assigned_literal _ hliteral

end Lines

section Words

variable {l : ConfLine} {conf : ConfFile} {ws : List Text}

theorem IsWord.barred {v w : Text} (hv : IsWord v) (hw : IsWord w) : IsWord (v ++ '|' :: w) where
  plain := by
    intro c hc
    rcases List.mem_append.mp hc with hc | hc
    · exact hv.plain c hc
    · rcases List.mem_cons.mp hc with rfl | hc
      · rfl
      · exact hw.plain c hc
  ne_nil := by simp
  unquoted := by
    intro c hc
    rcases List.mem_append.mp hc with hc | hc
    · exact hv.unquoted c hc
    · rcases List.mem_cons.mp hc with rfl | hc
      · decide
      · exact hw.unquoted c hc
  noOption := by
    rw [List.head?_append_of_ne_nil v hv.ne_nil]
    exact hv.noOption

theorem words_unwords (h : ∀ w ∈ ws, IsWord w) : Awk.words (unwords ws) = ws :=
  Shell.words_unwords fun w hw => ⟨(h w hw).plain, (h w hw).ne_nil⟩

theorem ordinary_unwords (h : ∀ w ∈ ws, IsWord w) : Ordinary (unwords ws) := by
  constructor
  · intro c hc
    rcases Shell.of_mem_intercalate hc with hc | ⟨w, hw, hc⟩
    · rw [List.mem_singleton.mp hc]
      decide
    · exact (h w hw).unquoted c hc
  · rw [words_unwords h]
    exact fun w hw => (h w hw).noOption

theorem Ordinary.blank_cons {x : Text} (h : Ordinary x) : Ordinary (' ' :: x) := by
  constructor
  · intro c hc
    rcases List.mem_cons.mp hc with rfl | hc
    · decide
    · exact h.1 c hc
  · rw [Awk.words_blank_cons (by decide)]
    exact h.2

theorem bars_plain {w : Text} (hw : Awk.Plain w) : bars w = w := by
  unfold bars
  conv_rhs => rw [← List.map_id w]
  refine List.map_congr_left fun c hc => if_neg ?_
  rintro rfl
  cases hw ' ' hc

/-- Words with bars between them. -/
theorem bars_unwords (h : ∀ w ∈ ws, IsWord w) : bars (unwords ws) = List.intercalate ['|'] ws := by
  induction ws with
  | nil => rfl
  | cons w ws ih =>
    have hw := bars_plain (h w List.mem_cons_self).plain
    have htail := ih fun v hv => h v (List.mem_cons_of_mem w hv)
    cases ws with
    | nil =>
      unfold unwords
      rw [List.intercalate_singleton, List.intercalate_singleton, hw]
    | cons v ws =>
      unfold unwords at htail ⊢
      rw [List.intercalate_cons_cons, List.intercalate_cons_cons, ← htail]
      unfold bars at hw ⊢
      rw [List.map_append, List.map_append, hw]
      rfl

theorem startsWith_set (o : Valued) (v : Text) :
    startsWith "REFUSE".toList (ConfLine.set o v).text = false ∧
      startsWith "INDEX".toList (ConfLine.set o v).text = false := by
  cases o <;> exact ⟨rfl, rfl⟩

/-- The words of the line, if `grep` finds it. -/
theorem refused_eq (h : l.Valid) :
    (if startsWith "REFUSE".toList l.text = true then Awk.words (l.text.drop 6) else []) =
      l.refused := by
  cases l with
  | set o v => rw [(startsWith_set o v).1, if_neg Bool.false_ne_true]; rfl
  | refuse w ws =>
    have hdrop : (ConfLine.refuse w ws).text.drop 6 = ' ' :: unwords (w :: ws) := rfl
    have hfound : startsWith "REFUSE".toList (ConfLine.refuse w ws).text = true := rfl
    rw [hfound, if_pos rfl, hdrop, Awk.words_blank_cons (by decide), words_unwords h]
    rfl
  | index file describe =>
    have hfound : startsWith "REFUSE".toList (ConfLine.index file describe).text = false := rfl
    rw [hfound, if_neg Bool.false_ne_true]
    rfl
  | other l =>
    have hfound : startsWith "REFUSE".toList (ConfLine.other l).text = false := h.2.2.1
    rw [hfound, if_neg Bool.false_ne_true]
    rfl

theorem exists_of_startsWith_refuse (h : l.Valid)
    (hfound : startsWith "REFUSE".toList l.text = true) : ∃ w ws, l = .refuse w ws := by
  cases l with
  | set o v =>
    rw [(startsWith_set o v).1] at hfound
    cases hfound
  | refuse w ws => exact ⟨w, ws, rfl⟩
  | index file describe => cases hfound
  | other l =>
    have hnot : startsWith "REFUSE".toList (ConfLine.other l).text = false := h.2.2.1
    rw [hnot] at hfound
    cases hfound

theorem pair_eq (h : l.Valid) :
    (if startsWith "INDEX".toList l.text = true then some (bars (l.text.drop 6)) else none) =
      l.pair := by
  cases l with
  | set o v => rw [(startsWith_set o v).2, if_neg Bool.false_ne_true]; rfl
  | refuse w ws =>
    have hfound : startsWith "INDEX".toList (ConfLine.refuse w ws).text = false := rfl
    rw [hfound, if_neg Bool.false_ne_true]
    rfl
  | index file describe =>
    have hdrop : (ConfLine.index file describe).text.drop 6 = unwords [file, describe] := rfl
    have hfound : startsWith "INDEX".toList (ConfLine.index file describe).text = true := rfl
    have hwords : ∀ w ∈ [file, describe], IsWord w := by
      intro w hw
      rcases List.mem_cons.mp hw with rfl | hw
      · exact h.1
      · rw [List.mem_singleton.mp hw]
        exact h.2
    rw [hfound, if_pos rfl, hdrop, bars_unwords hwords, List.intercalate_cons_cons,
      List.intercalate_singleton, List.append_assoc, List.singleton_append]
    rfl
  | other l =>
    have hfound : startsWith "INDEX".toList (ConfLine.other l).text = false := h.2.2.2
    rw [hfound, if_neg Bool.false_ne_true]
    rfl

theorem isWord_pair {w : Text} (hw : w ∈ conf.pairs) : IsWord w := by
  obtain ⟨l, hl, hpair⟩ := List.mem_filterMap.mp hw
  cases l with
  | index file describe =>
    rw [← Option.some.inj hpair]
    exact (conf.valid _ hl).1.barred (conf.valid _ hl).2
  | _ => cases hpair

theorem length_unlines_cons (m : Text) (ls : List Text) :
    (unlines (m :: ls)).length = m.length + 1 + (unlines ls).length := by
  unfold unlines
  rw [List.flatMap_cons, List.length_append, List.length_append, List.length_singleton]

/-- Parts of some of the lines are not longer than the file. -/
theorem length_unlines_le (found : Text → Bool) {part : Text → Text}
    (hpart : ∀ l, (part l).length ≤ l.length) (ls : List Text) :
    (unlines ((ls.filter found).map part)).length ≤ (unlines ls).length := by
  induction ls with
  | nil => exact Nat.le_refl 0
  | cons l ls ih =>
    rw [length_unlines_cons]
    by_cases hl : found l = true
    · rw [List.filter_cons_of_pos hl, List.map_cons, length_unlines_cons]
      exact Nat.add_le_add (Nat.succ_le_succ (hpart l)) ih
    · rw [List.filter_cons_of_neg hl]
      exact ih.trans (Nat.le_add_left _ _)

theorem length_bars (x : Text) : (bars x).length = x.length := List.length_map _

theorem confIndex_text (p : Params) (hfits : conf.text.length ≤ e.limit) :
    confIndex e (lines conf.text) p =
      { p with indexpairs := if conf.pairs = [] then p.indexpairs else unwords conf.pairs } := by
  have hpairs : ((lines conf.text).filter (startsWith "INDEX".toList)).map
      (fun l => bars (l.drop 6)) = conf.pairs := by
    rw [lines_text, ← List.filterMap_eq_map, List.filterMap_filter, List.filterMap_map]
    exact List.filterMap_congr fun l hl => pair_eq (conf.valid l hl)
  have hsize : (unlines conf.pairs).length ≤ e.limit := by
    rw [← hpairs, lines_text]
    refine (length_unlines_le _ (fun l => ?_) _).trans hfits
    rw [length_bars, List.length_drop]
    exact Nat.sub_le _ _
  have hwords : ∀ w ∈ conf.pairs, Awk.words w = [w] :=
    fun w hw => Awk.words_plain (isWord_pair hw).plain (isWord_pair hw).ne_nil
  have hordinary : ∀ w ∈ conf.pairs, Ordinary w := by
    intro w hw
    refine ⟨(isWord_pair hw).unquoted, ?_⟩
    rw [hwords w hw]
    exact fun v hv => List.mem_singleton.mp hv ▸ (isWord_pair hw).noOption
  have hecho : e.xargsEcho conf.pairs = unwords conf.pairs := by
    rw [e.echo_ordinary _ hsize hordinary]
    congr 1
    rw [List.flatMap_congr hwords]
    exact List.flatMap_pure_eq_map _ _ |>.trans (List.map_id _)
  unfold confIndex
  dsimp only
  rw [hpairs, hecho]
  by_cases hfound : (lines conf.text).filter (startsWith "INDEX".toList) = []
  · have hnil : conf.pairs = [] := by rw [← hpairs, hfound, List.map_nil]
    rw [if_pos hfound, if_pos hnil]
  · have hne : conf.pairs ≠ [] := by
      rw [← hpairs]
      exact fun h => hfound (List.map_eq_nil_iff.mp h)
    rw [if_neg hfound, if_neg hne]

theorem flatMap_filter {α β : Type} (p : α → Bool) (f : α → List β) (xs : List α) :
    (xs.filter p).flatMap f = xs.flatMap fun x => if p x = true then f x else [] := by
  induction xs with
  | nil => rfl
  | cons x xs ih =>
    rw [List.flatMap_cons, ← ih]
    by_cases hx : p x = true
    · rw [List.filter_cons_of_pos hx, List.flatMap_cons, if_pos hx]
    · rw [List.filter_cons_of_neg hx, if_neg hx, List.nil_append]

theorem isWord_refused {w : Text} (hw : w ∈ conf.refused) : IsWord w := by
  obtain ⟨l, hl, hw⟩ := List.mem_flatMap.mp hw
  cases l with
  | refuse v ws => exact conf.valid _ hl w hw
  | _ => cases hw

theorem confRefuse_text (p : Params) (hp : p.refuse = []) (hfits : conf.text.length ≤ e.limit) :
    confRefuse e (lines conf.text) p = { p with refuse := refuseExpression conf.refused } := by
  let found := (lines conf.text).filter (startsWith "REFUSE".toList)
  have hfound : ∀ l ∈ found, ∃ w ws, (∀ v ∈ w :: ws, IsWord v) ∧
      l = (ConfLine.refuse w ws).text := by
    intro l hl
    obtain ⟨hline, hstarts⟩ := List.mem_filter.mp hl
    rw [lines_text] at hline
    obtain ⟨m, hm, rfl⟩ := List.mem_map.mp hline
    obtain ⟨w, ws, rfl⟩ := exists_of_startsWith_refuse (conf.valid m hm) hstarts
    exact ⟨w, ws, conf.valid _ hm, rfl⟩
  have hwords : (found.map (List.drop 6)).flatMap Awk.words = conf.refused := by
    rw [List.flatMap_map, flatMap_filter, lines_text, List.flatMap_map]
    exact List.flatMap_congr fun l hl => refused_eq (conf.valid l hl)
  have hsize : (unlines (found.map (List.drop 6))).length ≤ e.limit := by
    refine (length_unlines_le _ (fun l => ?_) _).trans ?_
    · rw [List.length_drop]
      exact Nat.sub_le _ _
    · rw [lines_text]
      exact hfits
  have hordinary : ∀ l ∈ found.map (List.drop 6), Ordinary l := by
    intro x hx
    obtain ⟨l, hl, rfl⟩ := List.mem_map.mp hx
    obtain ⟨w, ws, hws, rfl⟩ := hfound l hl
    exact (ordinary_unwords hws).blank_cons
  unfold confRefuse
  change (if found = [] then p else
    { p with refuse := "^(".toList ++
      (bars (e.xargsEcho (found.map (List.drop 6))) ++ ")".toList) }) = _
  rw [e.echo_ordinary _ hsize hordinary, hwords, bars_unwords fun w hw => isWord_refused hw]
  unfold refuseExpression
  by_cases hnil : found = []
  · have hrefused : conf.refused = [] := by rw [← hwords, hnil]; rfl
    rw [if_pos hnil, if_pos hrefused, ← hp]
  · have hrefused : conf.refused ≠ [] := by
      obtain ⟨l, hl⟩ := List.exists_mem_of_ne_nil found hnil
      obtain ⟨w, ws, hws, rfl⟩ := hfound l hl
      have hdrop : (ConfLine.refuse w ws).text.drop 6 = ' ' :: unwords (w :: ws) := rfl
      have hw : w ∈ Awk.words ((ConfLine.refuse w ws).text.drop 6) := by
        rw [hdrop, Awk.words_blank_cons (by decide), words_unwords hws]
        exact List.mem_cons_self
      rw [← hwords]
      exact List.ne_nil_of_mem (List.mem_flatMap.mpr ⟨_, List.mem_map_of_mem hl, hw⟩)
    rw [if_neg hnil, if_neg hrefused]

end Words

theorem set_get (o : Valued) (p : Params) : o.set (o.get p) p = p := by cases o <;> rfl

theorem set_orElse (o : Valued) (v : Text) (p : Params) :
    (if o.get p = [] then o.set v p else p) = o.set (orElse (o.get p) v) p := by
  unfold orElse
  by_cases h : o.get p = []
  · rw [if_pos h, if_pos h]
  · rw [if_neg h, if_neg h, set_get]

theorem parseConffile_text {conf : ConfFile} (p : Params) (hp : p.refuse = [])
    (hfits : conf.text.length ≤ e.limit) :
    parseConffile e (some conf.text) p =
      { p with
        keyprint := orElse p.keyprint (conf.value .keyprint)
        workdir := orElse p.workdir (conf.value .workdir)
        portsdir := orElse p.portsdir (conf.value .portsdir)
        servername := orElse p.servername (conf.value .servername)
        refuse := refuseExpression conf.refused
        indexpairs := if conf.pairs = [] then p.indexpairs else unwords conf.pairs } := by
  have hkeys : confKeys.foldl
      (fun p o => if o.get p = [] then o.set (confValue e (lines conf.text) o) p else p) p =
      { p with
        keyprint := orElse p.keyprint (conf.value .keyprint)
        workdir := orElse p.workdir (conf.value .workdir)
        portsdir := orElse p.portsdir (conf.value .portsdir)
        servername := orElse p.servername (conf.value .servername) } := by
    simp only [set_orElse, confKeys, List.foldl_cons, List.foldl_nil]
    rw [confValue_text e conf (by decide), confValue_text e conf (by decide),
      confValue_text e conf (by decide), confValue_text e conf (by decide)]
    rfl
  unfold parseConffile
  dsimp only
  rw [hkeys, confRefuse_text e, confIndex_text e _ hfits]
  · exact hp
  · exact hfits

theorem orElse_assoc (x y z : Text) : orElse (orElse x y) z = orElse x (orElse y z) := by
  unfold orElse
  by_cases hx : x = []
  · rw [if_pos hx, if_pos hx]
  · rw [if_neg hx, if_neg hx, if_neg hx]

theorem orElse_nil (x : Text) : orElse x [] = x := by
  unfold orElse
  split
  · exact Eq.symm ‹x = []›
  · rfl

/-- What the configuration file and the defaults add to a command line. -/
theorem defaultParams_said {conf : Option ConfFile} (indexpairs : Text) (cl : CommandLine)
    (hfits : ∀ c, conf = some c → c.text.length ≤ e.limit) :
    defaultParams (parseConffile e (conf.map ConfFile.text)
      (defaultConffile (said indexpairs cl.items cl.path))) = meant indexpairs cl conf := by
  cases conf with
  | none =>
    unfold meant
    dsimp only [Option.map_none, Option.getD_none]
    rw [orElse_nil, orElse_nil]
    rfl
  | some c =>
    rw [Option.map_some, parseConffile_text e _ rfl (hfits c rfl)]
    unfold defaultParams
    dsimp only
    rw [orElse_assoc, orElse_assoc]
    rfl

variable {e} {g : Globbing} {confs : Text → Option ConfFile}

theorem ne_nil_of_mem_expanded (hnames : ∀ w, w ≠ [] → [] ∉ g.expand w) {args : List Text}
    {w : Text} (hw : w ∈ expanded g args) : w ≠ [] := by
  obtain ⟨v, hv, hw⟩ := List.mem_flatMap.mp hw
  obtain ⟨a, _, hv⟩ := List.mem_flatMap.mp hv
  rintro rfl
  exact hnames v (Awk.plain_of_mem_words hv).2 hw

/-- The words that `parse_cmdline` is called with are those of the command line. -/
def Accepted (g : Globbing) (args : List Text) (cl : CommandLine) : Prop :=
  cl.WellFormed ∧ cl.words = expanded g (expanded g args)

def textsOf (confs : Text → Option ConfFile) (f : Text) : Option Text :=
  (confs f).map ConfFile.text

theorem parseCmdline_eq_accepted (hnames : ∀ w, w ≠ [] → [] ∉ g.expand w) (indexpairs : Text)
    (args : List Text) (p : Params) :
    parseCmdline (initParams indexpairs) (expanded g (expanded g args)) = some p ↔
      ∃ cl, Accepted g args cl ∧ p = said indexpairs cl.items cl.path := by
  rw [parseCmdline_eq_some_iff fun w hw => ne_nil_of_mem_expanded hnames hw]
  exact exists_congr fun cl => and_assoc.symm

theorem getParams_of_accepted (hfits : ∀ f conf, confs f = some conf → conf.text.length ≤ e.limit)
    (hnames : ∀ w, w ≠ [] → [] ∉ g.expand w) (indexpairs : Text) {args : List Text}
    {cl : CommandLine} (hcl : Accepted g args cl) :
    getParams e g (textsOf confs) indexpairs args =
      if given cl.items .conffile ≠ [] ∧ confs (given cl.items .conffile) = none then
        .error (.unreadable (given cl.items .conffile))
      else
        .ok (meant indexpairs cl
          (confs (orElse (given cl.items .conffile) "/usr/local/etc/portsnap.conf".toList))) := by
  have hparse := (parseCmdline_eq_accepted hnames indexpairs args _).mpr ⟨cl, hcl, rfl⟩
  have hmeant := defaultParams_said e indexpairs cl
    (hfits (orElse (given cl.items .conffile) "/usr/local/etc/portsnap.conf".toList))
  unfold getParams
  rw [hparse]
  change (if given cl.items .conffile ≠ [] ∧
    (confs (given cl.items .conffile)).map ConfFile.text = none then _ else _) = _
  simp only [Option.map_eq_none_iff]
  split
  · rfl
  · exact congrArg Except.ok hmeant

theorem exists_accepted (hnames : ∀ w, w ≠ [] → [] ∉ g.expand w) {indexpairs : Text}
    {args : List Text} (h : getParams e g (textsOf confs) indexpairs args ≠ .error .usage) :
    ∃ cl, Accepted g args cl := by
  cases hparse : parseCmdline (initParams indexpairs) (expanded g (expanded g args)) with
  | none =>
    unfold getParams at h
    rw [hparse] at h
    exact absurd rfl h
  | some p =>
    obtain ⟨cl, hcl, _⟩ := (parseCmdline_eq_accepted hnames indexpairs args p).mp hparse
    exact ⟨cl, hcl⟩

/-- A well-formed command line gives the parameters that are meant, unless it names a
configuration file that is not readable; any other one gives the usage. -/
theorem getParams_spec (hfits : ∀ f conf, confs f = some conf → conf.text.length ≤ e.limit)
    (hnames : ∀ w, w ≠ [] → [] ∉ g.expand w) (indexpairs : Text) (args : List Text) :
    (∀ p, getParams e g (textsOf confs) indexpairs args = .ok p ↔ ∃ cl, Accepted g args cl ∧
      (given cl.items .conffile ≠ [] → confs (given cl.items .conffile) ≠ none) ∧
      p = meant indexpairs cl
        (confs (orElse (given cl.items .conffile) "/usr/local/etc/portsnap.conf".toList))) ∧
    (∀ f, getParams e g (textsOf confs) indexpairs args = .error (.unreadable f) ↔
      ∃ cl, Accepted g args cl ∧ given cl.items .conffile = f ∧ f ≠ [] ∧ confs f = none) ∧
    (getParams e g (textsOf confs) indexpairs args = .error .usage ↔
      ∀ cl, ¬ Accepted g args cl) := by
  refine ⟨fun p => ⟨fun hp => ?_, ?_⟩, fun f => ⟨fun hf => ?_, ?_⟩, fun hstop cl hcl => ?_,
    fun hno => ?_⟩
  · have hne : getParams e g (textsOf confs) indexpairs args ≠ .error .usage := by
      rw [hp]
      exact nofun
    obtain ⟨cl, hcl⟩ := exists_accepted hnames hne
    have hend := getParams_of_accepted hfits hnames indexpairs hcl
    rw [hp] at hend
    split at hend
    · cases hend
    · rename_i hreadable
      exact ⟨cl, hcl, fun hgiven hconf => hreadable ⟨hgiven, hconf⟩, Except.ok.inj hend⟩
  · rintro ⟨cl, hcl, hreadable, rfl⟩
    rw [getParams_of_accepted hfits hnames indexpairs hcl, if_neg fun h => hreadable h.1 h.2]
  · have hne : getParams e g (textsOf confs) indexpairs args ≠ .error .usage := by
      rw [hf]
      exact nofun
    obtain ⟨cl, hcl⟩ := exists_accepted hnames hne
    have hend := getParams_of_accepted hfits hnames indexpairs hcl
    rw [hf] at hend
    split at hend
    · rename_i hunreadable
      cases hend
      exact ⟨cl, hcl, rfl, hunreadable⟩
    · cases hend
  · rintro ⟨cl, hcl, rfl, hgiven, hconf⟩
    rw [getParams_of_accepted hfits hnames indexpairs hcl, if_pos ⟨hgiven, hconf⟩]
  · have hend := getParams_of_accepted hfits hnames indexpairs hcl
    rw [hstop] at hend
    split at hend <;> cases hend
  · by_contra hne
    obtain ⟨cl, hcl⟩ := exists_accepted hnames hne
    exact hno cl hcl

def shippedLines : List ConfLine :=
  [.other "# Server or server pool from which to fetch updates.".toList,
    .set .servername "portsnap.FreeBSD.org".toList,
    .set .keyprint "9b5feee6d69f170e3dd0a2c8e469ddbd64f13f978f2f3aede40c98633216c330".toList,
    .index "INDEX-3".toList "DESCRIBE.9".toList]

theorem shippedLines_valid : ∀ l ∈ shippedLines, l.Valid := by
  intro l hl
  unfold shippedLines at hl
  simp only [List.mem_cons, List.not_mem_nil, or_false] at hl
  rcases hl with rfl | rfl | rfl | rfl
  · exact ⟨by decide +kernel, by decide +kernel, by decide +kernel, by decide +kernel⟩
  · exact ⟨by decide +kernel, by decide +kernel⟩
  · exact ⟨by decide +kernel, by decide +kernel⟩
  · exact ⟨⟨by decide +kernel, by decide, List.all_iff_forall_prop.mp (by decide), by decide⟩,
      ⟨by decide +kernel, by decide, List.all_iff_forall_prop.mp (by decide), by decide⟩⟩

def shippedConf : ConfFile where
  lines := shippedLines
  valid := shippedLines_valid

def plainEvaluation : Evaluation where
  assigned := id
  xargsEcho ls := unwords (ls.flatMap Awk.words)
  limit := 4096
  assigned_literal _ _ := rfl
  echo_ordinary _ _ _ := rfl

theorem plain_ne_nil (w : Text) : [w] ≠ [] := List.cons_ne_nil _ _

theorem plain_noNewline (w : Text) (h : '\n' ∉ w) : ∀ v ∈ [w], '\n' ∉ v := by
  intro v hv
  rwa [List.mem_singleton.mp hv]

theorem plain_literal (u w : Text) (_ : ∀ c ∈ u, Shell.isGlob c = false) :
    ∀ v ∈ [u ++ w], u <+: v := by
  intro v hv
  rw [List.mem_singleton.mp hv]
  exact List.prefix_append u w

/-- No file matches. -/
def plainWords : Globbing where
  expand w := [w]
  ne_nil := plain_ne_nil
  noNewline := plain_noNewline
  literal := plain_literal

def shippedConfs (f : Text) : Option ConfFile :=
  if f = "/usr/local/etc/portsnap.conf".toList then some shippedConf else none

/-- `portsnap -p /p extract misc/` -/
def extractMisc : CommandLine where
  items := [.valued .portsdir "/p".toList, .command .extract]
  path := some "misc/".toList

theorem extractMisc_parameters :
    ∃ p, getParams plainEvaluation plainWords (textsOf shippedConfs) [] extractMisc.words = .ok p ∧
      p.workdir = "/var/db/portsnap".toList ∧ p.portsdir = "/p".toList ∧
      p.servername = "portsnap.FreeBSD.org".toList ∧ p.commands = [.extract] ∧
      p.extractpath = "misc/".toList ∧ p.indexpairs = "INDEX-3|DESCRIBE.9".toList := by
  have hfits : ∀ f conf, shippedConfs f = some conf →
      conf.text.length ≤ plainEvaluation.limit := by
    intro f conf hconf
    unfold shippedConfs at hconf
    split at hconf
    · rw [← Option.some.inj hconf]
      decide +kernel
    · cases hconf
  have hnames : ∀ w, w ≠ [] → [] ∉ plainWords.expand w :=
    fun w hw hmem => hw (List.mem_singleton.mp hmem).symm
  have haccepted : Accepted plainWords extractMisc.words extractMisc :=
    ⟨⟨by decide, by decide, by decide⟩, by decide⟩
  refine ⟨_, ((getParams_spec hfits hnames [] extractMisc.words).1 _).mpr
    ⟨extractMisc, haccepted, ?_, rfl⟩, ?_⟩
  · decide
  · exact ⟨by decide, by decide, by decide, by decide, by decide, by decide⟩

end DeltaPorts.Portsnap.Parameters
