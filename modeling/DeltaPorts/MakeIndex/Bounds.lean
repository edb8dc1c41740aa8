import DeltaPorts.Library.CStrings
import DeltaPorts.MakeIndex.Fields

/-!
# Where `portify` and `makelist` read and write

Both functions once more, on the line in memory, in which `strsep` overwrites the separators.
Each access is checked. For every line they do what the functions on lists do, so that these say
exactly for which lines all accesses are within bounds.
-/

set_option autoImplicit false

namespace DeltaPorts.MakeIndex.Pointers

open CStrings Loops

def fault : Failure := .undefinedBehaviour

/-- Strip trailing slashes. -/
def stripSlash (name : Piece) : Except Failure Piece := do
  let n ← strlen fault name 0
  let last ← load fault name (n - 1)
  if last = slash then
    let n ← strlen fault name 0
    store fault name (n - 1) 0
  else return name

/-- Fill an array. -/
def fill : Nat → Cursor → Except Failure (List Piece × Cursor)
  | 0, str => return ([], str)
  | n + 1, str => do
    let (name, str) ← token fault space str
    let name ← stripSlash name
    let (names, str) ← fill n str
    return (name :: names, str)

/-- The array, and the memory in which `str` points to the list. -/
def makelist (memory : Piece) (str : Option Nat) : Except Failure (List Piece × Piece) :=
  match str with
  | none => throw fault
  | some i => do
    let first ← load fault memory i
    -- No depends at all?
    if first = 0 then return ([], memory)
    let n ← countFrom fault space (memory.drop i) 1
    let (names, str) ← fill n ⟨memory, some i⟩
    return (names, str.memory)

/-- `makelist(strsep(&line, "|"), …)` -/
def column (line : Cursor) : Except Failure (List Piece × Cursor) := do
  let (str, line) ← CStrings.strsep fault bar line
  let (names, memory) ← makelist line.memory str
  return (names, ⟨memory, line.next⟩)

def portify (line : Piece) : Except Failure Port := do
  -- Verify that line has the right number of fields
  let n ← countFrom fault bar line 0
  if n ≠ 12 then
    throw (.errx (bytes "Port describe line is corrupt:\n" ++ cString line ++ bytes "\n"))
  let (pkgname, line) ← token fault bar ⟨line, some 0⟩
  let (portdir, line) ← token fault bar line
  let (installPrefix, line) ← token fault bar line
  let (comment, line) ← token fault bar line
  let (pkgdescr, line) ← token fault bar line
  let (maintainer, line) ← token fault bar line
  let (categories, line) ← token fault bar line
  let (edep, line) ← column line
  let (pdep, line) ← column line
  let (fdep, line) ← column line
  let (bdep, line) ← column line
  let (rdep, line) ← column line
  let (www, _) ← token fault bar line
  return {
    pkgname := cString pkgname
    portdir := cString portdir
    installPrefix := cString installPrefix
    comment := cString comment
    pkgdescr := cString pkgdescr
    maintainer := cString maintainer
    categories := cString categories
    names := byKind (edep.map cString) (pdep.map cString) (fdep.map cString) (bdep.map cString)
      (rdep.map cString)
    www := cString www }

variable {u : Bytes} {us : List Bytes} {limit : Nat} {x y : Cursor}

theorem cString_append (h : 0 ∉ u) (after : Bytes) : cString (u ++ 0 :: after) = u := by
  have hpos : ∀ b ∈ u, decide (b ≠ 0) = true := by
    intro b hb
    rw [decide_eq_true_iff]
    rintro rfl
    exact h hb
  rw [cString, List.takeWhile_append_of_pos hpos, List.takeWhile_cons_of_neg (by simp),
    List.append_nil]

theorem stripSlash_alike (h : 0 ∉ u) :
    Alike (fun name stripped => cString name = stripped) (stripSlash (u ++ [0]))
      (MakeIndex.stripSlash u) := by
  rcases List.eq_nil_or_concat' u with rfl | ⟨v, b, rfl⟩
  · exact .error fault
  · have hlen := strlen_eq fault (reads_concat h)
    have hindex : (((v ++ [b]).length : Nat) - 1 : Int) = (v.length : Nat) := by
      rw [List.length_append, List.length_singleton]
      omega
    have hload : load fault (v ++ [b] ++ [0]) ((v.length : Nat) : Int) = .ok b := by
      apply load_drop
      rw [List.append_assoc, List.drop_left]
      rfl
    have hstore : store fault (v ++ [b] ++ [0]) ((v.length : Nat) : Int) 0 =
        .ok (v ++ 0 :: [0]) := by
      rw [store, Int.toNat_natCast, if_neg (by simp), List.append_assoc,
        List.set_append_right _ _ (Nat.le_refl _), Nat.sub_self]
      rfl
    have hstrip : stripSlash (v ++ [b] ++ [0]) =
        if b = slash then .ok (v ++ 0 :: [0]) else .ok (v ++ [b] ++ [0]) := by
      simp only [stripSlash, hlen, hindex, hload, hstore, bind, Except.bind, pure, Except.pure]
    have hne : v ++ [b] ≠ [] := by simp
    rw [hstrip, MakeIndex.stripSlash, if_neg hne, List.getLast?_concat, List.dropLast_concat]
    by_cases hb : b = slash
    · rw [if_pos hb, if_pos (congrArg some hb)]
      rw [List.mem_append, not_or] at h
      exact .ok (cString_append h.1 _)
    · rw [if_neg hb, if_neg fun heq => hb (Option.some.inj heq)]
      exact .ok (cString_append h [])

/-- One element of the array for each token. -/
theorem fill_alike (h : Holds space limit x us) :
    Alike (fun r names => r.1.map cString = names ∧
      CStrings.Kept limit x.memory r.2.memory)
      (fill us.length x) (us.mapM MakeIndex.stripSlash) := by
  induction us generalizing x with
  | nil => exact .ok ⟨rfl, fun _ _ => rfl⟩
  | cons u us ih =>
    obtain ⟨y, htoken, hnul, hy, hkept⟩ := token_eq fault h
    rw [List.length_cons, fill, htoken, List.mapM_cons]
    refine (stripSlash_alike hnul).bind fun name stripped hname => ?_
    refine (ih hy).bind fun r names hr => ?_
    refine .ok ⟨?_, hkept.trans hr.2⟩
    rw [List.map_cons, hname, hr.1]

theorem holds_splitOn {c : Byte} {m : Piece} {i : Nat} (h : Reads m i u)
    (hlimit : i + u.length ≤ limit) : Holds c limit ⟨m, some i⟩ (u.splitOn c) := by
  cases hsplit : u.splitOn c with
  | nil => exact absurd hsplit (List.splitOn_ne_nil c u)
  | cons v us =>
    have hwhole : [c].intercalate (v :: us) = u := by
      rw [← hsplit, List.intercalate_splitOn]
    refine ⟨i, rfl, ?_, ?_, ?_⟩
    · rwa [hwhole]
    · rw [← hsplit]
      exact (splitOn_pieces c u).2
    · rwa [hwhole]

theorem makelist_alike {m : Piece} {i : Nat} (h : Reads m i u) :
    Alike (fun r names => r.1.map cString = names ∧ CStrings.Kept (i + u.length) m r.2)
      (makelist m (some i)) (MakeIndex.makelist u) := by
  obtain ⟨after, hstands⟩ := h.stands
  cases u with
  | nil =>
    have hload := load_drop fault hstands
    have hnone : makelist m (some i) = .ok ([], m) := by
      simp only [makelist, hload, bind, Except.bind, if_pos, pure, Except.pure]
    rw [hnone]
    exact .ok ⟨rfl, fun _ _ => rfl⟩
  | cons b u =>
    have hload := load_drop fault hstands
    have hb : b ≠ 0 := by
      rintro rfl
      exact h.noNul List.mem_cons_self
    have hcount : countFrom fault space (m.drop i) 1 = .ok ((b :: u).splitOn space).length := by
      rw [hstands, countFrom_append fault h.noNul, (splitOn_pieces space (b :: u)).1,
        Nat.add_comm]
    have hlow : makelist m (some i) =
        (fill ((b :: u).splitOn space).length ⟨m, some i⟩ >>= fun r => .ok (r.1, r.2.memory)) := by
      simp only [makelist, hload, hcount, bind, Except.bind, if_neg hb, pure, Except.pure]
    have hhigh : MakeIndex.makelist (b :: u) =
        (((b :: u).splitOn space).mapM MakeIndex.stripSlash >>= fun names => .ok names) := by
      rw [MakeIndex.makelist, if_neg (List.cons_ne_nil b u), strseps_eq_splitOn]
      cases ((b :: u).splitOn space).mapM MakeIndex.stripSlash <;> rfl
    rw [hlow, hhigh]
    refine (fill_alike (holds_splitOn h (Nat.le_refl _))).bind fun r names hr => ?_
    exact .ok hr

/-- What `portify` makes of a field with a list. -/
theorem column_alike {k : Nat} (hk : k < us.length) (h : Holds bar limit x (us.drop k)) :
    Alike (fun r names => r.1.map cString = names ∧ Holds bar limit r.2 (us.drop (k + 1)))
      (column x) (MakeIndex.makelist (us.getD k [])) := by
  rw [List.drop_eq_getElem_cons hk] at h
  rw [List.getD_eq_getElem _ _ hk]
  obtain ⟨i, y, hstrsep, hsplit⟩ := strsep_split fault h
  have hhigh : MakeIndex.makelist us[k] = (MakeIndex.makelist us[k] >>= fun names => .ok names) := by
    cases MakeIndex.makelist us[k] <;> rfl
  rw [column, hstrsep, hhigh]
  refine (makelist_alike hsplit.reads).bind fun r names hr => ?_
  exact .ok ⟨hr.1, hsplit.holds.of_kept hsplit.later hr.2⟩

/-- What `portify` makes of another field. -/
theorem token_field {k : Nat} (hk : k < us.length) (h : Holds bar limit x (us.drop k)) :
    ∃ s y, token fault bar x = .ok (s, y) ∧ cString s = us.getD k [] ∧
      Holds bar limit y (us.drop (k + 1)) := by
  rw [List.drop_eq_getElem_cons hk] at h
  rw [List.getD_eq_getElem _ _ hk]
  obtain ⟨y, htoken, hnul, hy, _⟩ := token_eq fault h
  exact ⟨us[k] ++ [0], y, htoken, cString_append hnul [], hy⟩

/-- On the line in memory `portify` does what it does on the line as a list. -/
theorem portify_eq_portify {line : Bytes} (h : 0 ∉ line) :
    portify (line ++ [0]) = MakeIndex.portify line := by
  have hcount : countFrom fault bar (line ++ [0]) 0 = .ok (line.count bar) := by
    rw [countFrom_append fault h [], Nat.zero_add]
  by_cases hbars : line.count bar = 12
  · have hlen : (line.splitOn bar).length = 13 := by
      rw [(splitOn_pieces bar line).1, hbars]
    have hfields : strseps bar 13 (some line) = line.splitOn bar := by
      rw [← strseps_eq_splitOn, hbars]
    have h0 : Holds bar line.length ⟨line ++ [0], some 0⟩ ((line.splitOn bar).drop 0) :=
      holds_splitOn (reads_concat h) (by omega)
    obtain ⟨pkgname, x1, e0, f0, h1⟩ := token_field (by omega) h0
    obtain ⟨portdir, x2, e1, f1, h2⟩ := token_field (by omega) h1
    obtain ⟨installPrefix, x3, e2, f2, h3⟩ := token_field (by omega) h2
    obtain ⟨comment, x4, e3, f3, h4⟩ := token_field (by omega) h3
    obtain ⟨pkgdescr, x5, e4, f4, h5⟩ := token_field (by omega) h4
    obtain ⟨maintainer, x6, e5, f5, h6⟩ := token_field (by omega) h5
    obtain ⟨categories, x7, e6, f6, h7⟩ := token_field (by omega) h6
    apply Alike.eq
    unfold portify MakeIndex.portify
    rw [hcount, if_neg (not_not.mpr hbars), hfields]
    simp only [e0, e1, e2, e3, e4, e5, e6, f0, f1, f2, f3, f4, f5, f6, bind, Except.bind, hbars,
      pure, Except.pure, ne_eq, not_true_eq_false, if_false]
    refine (column_alike (by omega) h7).bind fun r edep hr => ?_
    obtain ⟨hedep, h8⟩ := hr
    refine (column_alike (by omega) h8).bind fun r pdep hr => ?_
    obtain ⟨hpdep, h9⟩ := hr
    refine (column_alike (by omega) h9).bind fun r fdep hr => ?_
    obtain ⟨hfdep, h10⟩ := hr
    refine (column_alike (by omega) h10).bind fun r bdep hr => ?_
    obtain ⟨hbdep, h11⟩ := hr
    refine (column_alike (by omega) h11).bind fun r rdep hr => ?_
    obtain ⟨hrdep, h12⟩ := hr
    obtain ⟨www, x13, e12, f12, _⟩ := token_field (by omega) h12
    simp only [e12, f12, hedep, hpdep, hfdep, hbdep, hrdep]
    exact .ok rfl
  · unfold portify MakeIndex.portify
    rw [hcount, if_pos hbars]
    simp only [bind, Except.bind, if_pos hbars, cString_append h []]
    rfl

structure DescribeLine where
  text : Bytes
  noNul : 0 ∉ text
  bars : text.count bar = 12

/-- At most one trailing slash of the token is missing in the name. -/
def OffBySlash (name token : Bytes) : Prop := token = name ∨ token = name ++ [slash]

def joined (p : Port) (tokens : Kind → List Bytes) : Bytes :=
  [bar].intercalate
    [p.pkgname, p.portdir, p.installPrefix, p.comment, p.pkgdescr, p.maintainer, p.categories,
      [space].intercalate (tokens .edep), [space].intercalate (tokens .pdep),
      [space].intercalate (tokens .fdep), [space].intercalate (tokens .bdep),
      [space].intercalate (tokens .rdep), p.www]

/-- As many entries as tokens, and nothing of the line is lost. -/
structure Faithful (line : Bytes) (p : Port) : Prop where
  entries : ∀ k, (p.names k).length = (named line k).length
  rejoined : ∃ tokens : Kind → List Bytes,
    (∀ k, List.Forall₂ OffBySlash (p.names k) (tokens k)) ∧ joined p tokens = line

/-- No access is out of bounds, and the port is what the line describes. -/
def ParsedWithinBounds (line : Bytes) : Prop :=
  ∃ p, portify (line ++ [0]) = .ok p ∧ Faithful line p

theorem cString_eq_self (h : 0 ∉ u) : cString u = u := by
  rw [cString, List.takeWhile_eq_self_iff]
  intro b hb
  rw [decide_eq_true_iff]
  rintro rfl
  exact h hb

theorem offBySlash_stripped (token : Bytes) : OffBySlash (stripped token) token := by
  unfold stripped
  by_cases hslash : token.getLast? = some slash
  · rw [if_pos hslash]
    exact .inr (List.dropLast_append_getLast? slash hslash).symm
  · rw [if_neg hslash]
    exact .inl rfl

theorem intercalate_named (line : Bytes) (k : Kind) :
    [space].intercalate (named line k) = field line k.number := by
  unfold named
  by_cases hempty : field line k.number = []
  · rw [if_pos hempty, hempty]
    rfl
  · rw [if_neg hempty, List.intercalate_splitOn]

theorem map_getD_range {n : Nat} (h : us.length = n) :
    (List.range n).map (fun i => us.getD i []) = us := by
  subst h
  apply List.ext_getElem
  · rw [List.length_map, List.length_range]
  · intro i h1 h2
    rw [List.getElem_map, List.getElem_range, List.getD_eq_getElem _ _ h2]

theorem faithful_describe (l : DescribeLine) : Faithful l.text (describe l.text) := by
  refine ⟨fun k => List.length_map _, named l.text, fun k => ?_, ?_⟩
  · exact List.forall₂_map_left_iff.mpr
      (List.forall₂_same.mpr fun token _ => offBySlash_stripped token)
  · have hlen : (l.text.splitOn bar).length = 13 := by
      rw [(splitOn_pieces bar l.text).1, l.bars]
    have hfields := map_getD_range hlen
    have hjoined : joined (describe l.text) (named l.text) =
        [bar].intercalate ((List.range 13).map (fun i => (l.text.splitOn bar).getD i [])) := by
      unfold joined
      rw [intercalate_named, intercalate_named, intercalate_named, intercalate_named,
        intercalate_named]
      unfold describe field
      rw [cString_eq_self l.noNul]
      rfl
    rw [hjoined, hfields, List.intercalate_splitOn]

theorem nil_not_mem_named {line : Bytes} {k : Kind} {names : List Bytes}
    (h : MakeIndex.makelist (field line k.number) = .ok names) : [] ∉ named line k := by
  unfold MakeIndex.makelist at h
  unfold named
  split at h
  · rename_i hempty
    rw [if_pos hempty]
    exact List.not_mem_nil
  · rename_i hne
    rw [strseps_eq_splitOn] at h
    rw [if_neg hne]
    intro hmem
    obtain ⟨name, _, hname⟩ := exists_of_forall₂ (mapM_forall₂ h).flip hmem
    cases hname

theorem nil_not_mem_of_portify (l : DescribeLine) {p : Port}
    (h : MakeIndex.portify l.text = .ok p) (k : Kind) : [] ∉ named l.text k := by
  have hfields : strseps bar 13 (some l.text) = (cString l.text).splitOn bar := by
    rw [cString_eq_self l.noNul, ← strseps_eq_splitOn, l.bars]
  unfold MakeIndex.portify at h
  rw [if_neg (not_not.mpr l.bars), hfields] at h
  obtain ⟨edep, hedep, h⟩ := bind_ok h
  obtain ⟨pdep, hpdep, h⟩ := bind_ok h
  obtain ⟨fdep, hfdep, h⟩ := bind_ok h
  obtain ⟨bdep, hbdep, h⟩ := bind_ok h
  obtain ⟨rdep, hrdep, h⟩ := bind_ok h
  cases k with
  | edep => exact nil_not_mem_named hedep
  | pdep => exact nil_not_mem_named hpdep
  | fdep => exact nil_not_mem_named hfdep
  | bdep => exact nil_not_mem_named hbdep
  | rdep => exact nil_not_mem_named hrdep

/-- Every access is within bounds exactly when the spaces in the lists stand one by one between
the names: of an empty name the byte before the string is read. -/
theorem parsedWithinBounds_iff (l : DescribeLine) :
    ParsedWithinBounds l.text ↔ ∀ k, [] ∉ named l.text k := by
  constructor
  · intro h
    obtain ⟨p, hp, _⟩ := h
    rw [portify_eq_portify l.noNul] at hp
    exact nil_not_mem_of_portify l hp
  · intro h
    have hself := cString_eq_self l.noNul
    have hbars : (cString l.text).count bar = 12 := by
      rw [hself, l.bars]
    refine ⟨describe l.text, ?_, faithful_describe l⟩
    rw [portify_eq_portify l.noNul]
    rw [← portify_eq hbars h, hself]

/-- Two spaces between two names. -/
def twoSpaces : DescribeLine where
  text := bytes "a-1|/usr/ports/x/a|/usr|A|d|m|x|/usr/ports/x/b  /usr/ports/x/c|||||"
  noNul := by decide +kernel
  bars := by decide +kernel

theorem twoSpaces_out_of_bounds : ¬ ∀ l : DescribeLine, ParsedWithinBounds l.text := by
  intro h
  obtain ⟨p, hp, _⟩ := h twoSpaces
  have hfails : (portify (twoSpaces.text ++ [0])).toBool = false := by decide +kernel
  rw [hp] at hfails
  cases hfails

end DeltaPorts.MakeIndex.Pointers
