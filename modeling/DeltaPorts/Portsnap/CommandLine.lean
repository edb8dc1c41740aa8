import DeltaPorts.Library.LineTools

/-!
# The command line of portsnap

`parse_cmdline` accepts the lists of options and commands, with a path at the end for `extract`
only, in which each option with a value is there once. The order of the options does not matter.
-/

set_option autoImplicit false

namespace DeltaPorts.Portsnap.Parameters

open LineTools (Text)

inductive Command where
  | cron
  | extract
  | fetch
  | update
  | alfred
  deriving DecidableEq

def Command.word : Command → Text
  | .cron => "cron".toList
  | .extract => "extract".toList
  | .fetch => "fetch".toList
  | .update => "update".toList
  | .alfred => "alfred".toList

/-- The options that take a value. -/
inductive Valued where
  | workdir
  | conffile
  | keyprint
  | localdesc
  | portsdir
  | servername
  deriving DecidableEq

def Valued.word : Valued → Text
  | .workdir => "-d".toList
  | .conffile => "-f".toList
  | .keyprint => "-k".toList
  | .localdesc => "-l".toList
  | .portsdir => "-p".toList
  | .servername => "-s".toList

/-- The branches of the `case` on a word. -/
inductive Argument where
  | valued (o : Valued)
  | debug
  | help
  | indexOnly
  | noStats
  | command (c : Command)
  | other
  deriving DecidableEq

def patterns : List (Text × Argument) :=
  [("-d".toList, .valued .workdir), ("--debug".toList, .debug), ("-f".toList, .valued .conffile),
    ("-h".toList, .help), ("--help".toList, .help), ("help".toList, .help),
    ("-I".toList, .indexOnly), ("-k".toList, .valued .keyprint),
    ("-l".toList, .valued .localdesc), ("--no-stats".toList, .noStats),
    ("-p".toList, .valued .portsdir), ("-s".toList, .valued .servername),
    ("cron".toList, .command .cron), ("extract".toList, .command .extract),
    ("fetch".toList, .command .fetch), ("update".toList, .command .update),
    ("alfred".toList, .command .alfred)]

def argumentOf (w : Text) : Argument :=
  match patterns.find? fun a => a.1 = w with
  | some a => a.2
  | none => .other

@[ext]
structure Params where
  keyprint : Text
  extractpath : Text
  workdir : Text
  portsdir : Text
  conffile : Text
  commands : List Command
  quietredir : Text
  quietflag : Text
  statsredir : Text
  xargst : Text
  ndebug : Text
  ddstats : Text
  indexonly : Text
  servername : Text
  refuse : Text
  localdesc : Text
  indexpairs : Text

/-- `INDEXPAIRS` is not cleared. -/
def initParams (indexpairs : Text) : Params :=
  ⟨[], [], [], [], [], [], [], [], [], [], [], [], [], [], [], [], indexpairs⟩

def Valued.get : Valued → Params → Text
  | .workdir, p => p.workdir
  | .conffile, p => p.conffile
  | .keyprint, p => p.keyprint
  | .localdesc, p => p.localdesc
  | .portsdir, p => p.portsdir
  | .servername, p => p.servername

def Valued.set : Valued → Text → Params → Params
  | .workdir, v, p => { p with workdir := v }
  | .conffile, v, p => { p with conffile := v }
  | .keyprint, v, p => { p with keyprint := v }
  | .localdesc, v, p => { p with localdesc := v }
  | .portsdir, v, p => { p with portsdir := v }
  | .servername, v, p => { p with servername := v }

def Params.debug (p : Params) : Params :=
  { p with
    quietredir := "/dev/stderr".toList
    statsredir := "/dev/stderr".toList
    quietflag := " ".toList
    ndebug := " ".toList
    xargst := "-t".toList
    ddstats := "..".toList }

def Params.noStats (p : Params) : Params :=
  if p.statsredir = [] then
    { p with statsredir := "/dev/null".toList, ddstats := ".. ".toList }
  else p

/-- `none` is a call of `usage`. -/
def parseCmdline (p : Params) : List Text → Option Params
  | [] => if p.commands = [] then none else some p
  | w :: rest =>
    match argumentOf w with
    | .valued o =>
      match rest with
      | [] => none
      | v :: rest => if o.get p = [] then parseCmdline (o.set v p) rest else none
    | .debug => parseCmdline p.debug rest
    | .help => none
    | .indexOnly => parseCmdline { p with indexonly := "YES".toList } rest
    | .noStats => parseCmdline p.noStats rest
    | .command c => parseCmdline { p with commands := p.commands ++ [c] } rest
    | .other =>
      match rest with
      | [] =>
        -- no other command word has `extract` in it
        if .extract ∈ p.commands then parseCmdline { p with extractpath := w } [] else none
      | _ :: _ => none

inductive Item where
  | valued (o : Valued) (v : Text)
  | debug
  | indexOnly
  | noStats
  | command (c : Command)
  deriving DecidableEq

def Item.words : Item → List Text
  | .valued o v => [o.word, v]
  | .debug => ["--debug".toList]
  | .indexOnly => ["-I".toList]
  | .noStats => ["--no-stats".toList]
  | .command c => [c.word]

def Item.option : Item → Option Valued
  | .valued o _ => some o
  | _ => none

def Item.value (o : Valued) : Item → Option Text
  | .valued o' v => if o' = o then some v else none
  | _ => none

def Item.command? : Item → Option Command
  | .command c => some c
  | _ => none

structure CommandLine where
  items : List Item
  path : Option Text

def CommandLine.words (cl : CommandLine) : List Text :=
  cl.items.flatMap Item.words ++ cl.path.toList

/-- The value of an option, empty without it. -/
def given (items : List Item) (o : Valued) : Text := (items.findSome? (Item.value o)).getD []

def commandsOf (items : List Item) : List Command := items.filterMap Item.command?

structure CommandLine.WellFormed (cl : CommandLine) : Prop where
  once : (cl.items.filterMap Item.option).Nodup
  commands : commandsOf cl.items ≠ []
  path : ∀ w ∈ cl.path, argumentOf w = .other ∧ .extract ∈ commandsOf cl.items

/-- The parameters after a command line, before the configuration file is read. -/
def said (indexpairs : Text) (items : List Item) (path : Option Text) : Params where
  keyprint := given items .keyprint
  extractpath := path.getD []
  workdir := given items .workdir
  portsdir := given items .portsdir
  conffile := given items .conffile
  commands := commandsOf items
  quietredir := if .debug ∈ items then "/dev/stderr".toList else []
  quietflag := if .debug ∈ items then " ".toList else []
  statsredir :=
    if .debug ∈ items then "/dev/stderr".toList
    else if .noStats ∈ items then "/dev/null".toList else []
  xargst := if .debug ∈ items then "-t".toList else []
  ndebug := if .debug ∈ items then " ".toList else []
  ddstats :=
    if .debug ∈ items then "..".toList else if .noStats ∈ items then ".. ".toList else []
  indexonly := if .indexOnly ∈ items then "YES".toList else []
  servername := given items .servername
  refuse := []
  localdesc := given items .localdesc
  indexpairs := indexpairs

/-- The words that a branch is for. -/
def Argument.words : Argument → List Text
  | .valued o => [o.word]
  | .debug => ["--debug".toList]
  | .help => ["-h".toList, "--help".toList, "help".toList]
  | .indexOnly => ["-I".toList]
  | .noStats => ["--no-stats".toList]
  | .command c => [c.word]
  | .other => []

theorem mem_words_of_argumentOf {w : Text} {a : Argument} (h : argumentOf w = a)
    (ha : a ≠ .other) : w ∈ a.words := by
  have hpatterns : ∀ a ∈ patterns, a.1 ∈ a.2.words := by decide
  unfold argumentOf at h
  cases hfind : patterns.find? fun a => a.1 = w with
  | none =>
    rw [hfind] at h
    exact absurd h.symm ha
  | some b =>
    rw [hfind] at h
    have hword : b.1 = w := by simpa using List.find?_some hfind
    rw [← hword, ← show b.2 = a from h]
    exact hpatterns b (List.mem_of_find?_eq_some hfind)

theorem argumentOf_valued (o : Valued) : argumentOf o.word = .valued o := by
  cases o <;> decide

theorem argumentOf_command (c : Command) : argumentOf c.word = .command c := by
  cases c <;> decide

/-- What one item does to the parameters. -/
def Item.apply : Item → Params → Params
  | .valued o v, p => o.set v p
  | .debug, p => p.debug
  | .indexOnly, p => { p with indexonly := "YES".toList }
  | .noStats, p => p.noStats
  | .command c, p => { p with commands := p.commands ++ [c] }

def Item.Allowed (p : Params) : Item → Prop
  | .valued o _ => o.get p = []
  | _ => True

theorem parseCmdline_item {p : Params} {i : Item} (h : i.Allowed p) (rest : List Text) :
    parseCmdline p (i.words ++ rest) = parseCmdline (i.apply p) rest := by
  cases i with
  | valued o v =>
    have hget : o.get p = [] := h
    rw [Item.words, List.cons_append, List.cons_append, List.nil_append, parseCmdline,
      argumentOf_valued]
    simp only [hget, if_true, Item.apply]
  | debug =>
    rw [Item.words, List.singleton_append, parseCmdline.eq_def]
    rfl
  | indexOnly =>
    rw [Item.words, List.singleton_append, parseCmdline.eq_def]
    rfl
  | noStats =>
    rw [Item.words, List.singleton_append, parseCmdline.eq_def]
    rfl
  | command c =>
    rw [Item.words, List.singleton_append, parseCmdline.eq_def]
    simp only [argumentOf_command]
    rfl

/-- The words that are accepted begin with an item, or are a path. -/
theorem split_of_parseCmdline {p q : Params} {w : Text} {rest : List Text}
    (h : parseCmdline p (w :: rest) = some q) :
    (∃ i rest', w :: rest = Item.words i ++ rest' ∧ i.Allowed p) ∨
      rest = [] ∧ argumentOf w = .other ∧ .extract ∈ p.commands ∧
        q = { p with extractpath := w } := by
  rw [parseCmdline.eq_def] at h
  cases harg : argumentOf w with
  | valued o =>
    have hw : w = o.word := List.mem_singleton.mp (mem_words_of_argumentOf harg nofun)
    simp only [harg] at h
    cases rest with
    | nil => cases h
    | cons v rest =>
      have hget : o.get p = [] := by
        by_contra hne
        simp only [hne, if_false] at h
        cases h
      exact .inl ⟨.valued o v, rest, by rw [hw]; rfl, hget⟩
  | debug =>
    have hw := List.mem_singleton.mp (mem_words_of_argumentOf harg nofun)
    exact .inl ⟨.debug, rest, by rw [hw]; rfl, trivial⟩
  | help =>
    simp only [harg] at h
    cases h
  | indexOnly =>
    have hw := List.mem_singleton.mp (mem_words_of_argumentOf harg nofun)
    exact .inl ⟨.indexOnly, rest, by rw [hw]; rfl, trivial⟩
  | noStats =>
    have hw := List.mem_singleton.mp (mem_words_of_argumentOf harg nofun)
    exact .inl ⟨.noStats, rest, by rw [hw]; rfl, trivial⟩
  | command c =>
    have hw := List.mem_singleton.mp (mem_words_of_argumentOf harg nofun)
    exact .inl ⟨.command c, rest, by rw [hw]; rfl, trivial⟩
  | other =>
    simp only [harg] at h
    cases rest with
    | cons v rest => cases h
    | nil =>
      by_cases hextract : .extract ∈ p.commands
      · simp only [hextract, if_true, parseCmdline] at h
        rw [if_neg (List.ne_nil_of_mem hextract)] at h
        exact .inr ⟨rfl, rfl, hextract, (Option.some.inj h).symm⟩
      · simp only [hextract, if_false] at h
        cases h

/-- No option has its value already when it is read. -/
def AllAllowed : Params → List Item → Prop
  | _, [] => True
  | p, i :: items => i.Allowed p ∧ AllAllowed (i.apply p) items

def applyAll (p : Params) (items : List Item) : Params :=
  items.foldl (fun p i => i.apply p) p

def withPath (path : Option Text) (p : Params) : Params :=
  { p with extractpath := path.getD p.extractpath }

/-- A path is the last word, and there is an `extract` before it. -/
def PathAllowed (p : Params) (path : Option Text) : Prop :=
  ∀ w ∈ path, argumentOf w = .other ∧ .extract ∈ p.commands

theorem parseCmdline_items {p : Params} {items : List Item} {path : Option Text}
    (hitems : AllAllowed p items) (hcommands : (applyAll p items).commands ≠ [])
    (hpath : PathAllowed (applyAll p items) path) :
    parseCmdline p (items.flatMap Item.words ++ path.toList) =
      some (withPath path (applyAll p items)) := by
  induction items generalizing p with
  | nil =>
    have hnonempty : p.commands ≠ [] := hcommands
    cases path with
    | none =>
      rw [List.flatMap_nil, List.nil_append, Option.toList_none, parseCmdline,
        if_neg hnonempty]
      rfl
    | some w =>
      obtain ⟨harg, hextract⟩ := hpath w rfl
      have hextract' : .extract ∈ p.commands := hextract
      rw [List.flatMap_nil, List.nil_append, Option.toList_some, parseCmdline, harg]
      simp only [hextract', if_true, parseCmdline]
      rw [if_neg hnonempty]
      rfl
  | cons i items ih =>
    rw [List.flatMap_cons, List.append_assoc, parseCmdline_item hitems.1]
    exact ih hitems.2 hcommands hpath

theorem items_of_parseCmdline {p q : Params} (words : List Text)
    (h : parseCmdline p words = some q) :
    ∃ items path, words = items.flatMap Item.words ++ Option.toList path ∧ AllAllowed p items ∧
      (applyAll p items).commands ≠ [] ∧ PathAllowed (applyAll p items) path ∧
      q = withPath path (applyAll p items) := by
  induction hn : words.length using Nat.strong_induction_on generalizing p words with
  | _ n ih =>
  cases words with
  | nil =>
    by_cases hcommands : p.commands = []
    · rw [parseCmdline, if_pos hcommands] at h
      cases h
    · rw [parseCmdline, if_neg hcommands] at h
      exact ⟨[], none, rfl, trivial, hcommands, nofun, (Option.some.inj h).symm⟩
  | cons w rest =>
    rcases split_of_parseCmdline h with ⟨i, rest', hwords, hi⟩ | ⟨rfl, harg, hextract, rfl⟩
    · rw [hwords, parseCmdline_item hi] at h
      have hshort : rest'.length < n := by
        rw [← hn, hwords, List.length_append]
        cases i <;> simp [Item.words]
      obtain ⟨items, path, rfl, hitems, hcommands, hpath, rfl⟩ := ih _ hshort rest' h rfl
      refine ⟨i :: items, path, ?_, ⟨hi, hitems⟩, hcommands, hpath, rfl⟩
      rw [hwords, List.flatMap_cons, List.append_assoc]
    · refine ⟨[], some w, rfl, trivial, List.ne_nil_of_mem hextract, ?_, rfl⟩
      intro v hv
      rw [← Option.some.inj hv]
      exact ⟨harg, hextract⟩

section Order

variable {items : List Item} {i : Item} {o : Valued}

def ValuesGiven (items : List Item) : Prop := ∀ o v, .valued o v ∈ items → v ≠ []

theorem given_eq_nil_iff (hvalues : ValuesGiven items) :
    given items o = [] ↔ o ∉ items.filterMap Item.option := by
  unfold given
  constructor
  · intro hgiven hmem
    obtain ⟨i, hi, hoption⟩ := List.mem_filterMap.mp hmem
    cases hfound : items.findSome? (Item.value o) with
    | none =>
      have hvalue := List.findSome?_eq_none_iff.mp hfound i hi
      cases i with
      | valued o' v =>
        have ho : o' = o := Option.some.inj hoption
        rw [Item.value, if_pos ho] at hvalue
        cases hvalue
      | _ => cases hoption
    | some v =>
      obtain ⟨j, hj, hvalue⟩ := List.exists_of_findSome?_eq_some hfound
      cases j with
      | valued o' v' =>
        rw [hfound] at hgiven
        rw [Item.value] at hvalue
        split at hvalue
        · rw [Option.some.inj hvalue] at hj
          exact hvalues o' v hj hgiven
        · cases hvalue
      | _ => cases hvalue
  · intro hmem
    have hfound : items.findSome? (Item.value o) = none := by
      rw [List.findSome?_eq_none_iff]
      intro i hi
      cases i with
      | valued o' v =>
        refine if_neg fun ho => hmem (List.mem_filterMap.mpr ⟨.valued o' v, hi, ?_⟩)
        rw [Item.option, ho]
      | _ => rfl
    rw [hfound]
    rfl

theorem given_concat_of_none (h : i.value o = none) : given (items ++ [i]) o = given items o := by
  unfold given
  rw [List.findSome?_append]
  simp [h]

theorem given_concat_self {v : Text} (hvalues : ValuesGiven items) (h : given items o = []) :
    given (items ++ [.valued o v]) o = v := by
  have hnone : items.findSome? (Item.value o) = none := by
    rw [given_eq_nil_iff hvalues] at h
    rw [List.findSome?_eq_none_iff]
    intro i hi
    cases i with
    | valued o' v =>
      refine if_neg fun ho => h (List.mem_filterMap.mpr ⟨.valued o' v, hi, ?_⟩)
      rw [Item.option, ho]
    | _ => rfl
  unfold given
  rw [List.findSome?_append, hnone]
  simp [Item.value]

theorem get_said (indexpairs : Text) (o : Valued) :
    o.get (said indexpairs items none) = given items o := by
  cases o <;> rfl

theorem commandsOf_concat (i : Item) :
    commandsOf (items ++ [i]) = commandsOf items ++ i.command?.toList := by
  unfold commandsOf
  rw [List.filterMap_append]
  cases i <;> rfl

theorem commandsOf_concat_of_none (h : i.command? = none) :
    commandsOf (items ++ [i]) = commandsOf items := by
  rw [commandsOf_concat, h]
  exact List.append_nil _

theorem mem_concat_of_ne {j : Item} (h : j ≠ i) : j ∈ items ++ [i] ↔ j ∈ items := by
  simp [h]

theorem mem_concat_self : i ∈ items ++ [i] := List.mem_append_right _ (List.mem_singleton.mpr rfl)

theorem apply_said (indexpairs : Text) (hvalues : ValuesGiven items)
    (h : i.Allowed (said indexpairs items none)) :
    i.apply (said indexpairs items none) = said indexpairs (items ++ [i]) none := by
  cases i with
  | valued o v =>
    have hgiven : given items o = [] := by
      rw [← get_said indexpairs]
      exact h
    have hself : given (items ++ [.valued o v]) o = v := given_concat_self hvalues hgiven
    have hother (o' : Valued) (hne : o ≠ o') :
        given (items ++ [.valued o v]) o' = given items o' :=
      given_concat_of_none (if_neg hne)
    have hcommands : commandsOf (items ++ [.valued o v]) = commandsOf items :=
      commandsOf_concat_of_none rfl
    have hdebug : Item.debug ∈ items ++ [.valued o v] ↔ .debug ∈ items := mem_concat_of_ne nofun
    have hstats : Item.noStats ∈ items ++ [.valued o v] ↔ .noStats ∈ items := mem_concat_of_ne nofun
    have hindex : Item.indexOnly ∈ items ++ [.valued o v] ↔ .indexOnly ∈ items := mem_concat_of_ne nofun
    cases o <;> simp (disch := decide) only [Item.apply, Valued.set, said, hself, hother,
      hcommands, hdebug, hstats, hindex]
  | debug =>
    have hother (o : Valued) : given (items ++ [.debug]) o = given items o :=
      given_concat_of_none rfl
    have hcommands : commandsOf (items ++ [.debug]) = commandsOf items := commandsOf_concat_of_none rfl
    have hindex : Item.indexOnly ∈ items ++ [.debug] ↔ .indexOnly ∈ items := mem_concat_of_ne nofun
    simp only [Item.apply, Params.debug, said, hother, hcommands, mem_concat_self, hindex, if_true]
  | indexOnly =>
    have hother (o : Valued) : given (items ++ [.indexOnly]) o = given items o :=
      given_concat_of_none rfl
    have hcommands : commandsOf (items ++ [.indexOnly]) = commandsOf items := commandsOf_concat_of_none rfl
    have hdebug : Item.debug ∈ items ++ [.indexOnly] ↔ .debug ∈ items := mem_concat_of_ne nofun
    have hstats : Item.noStats ∈ items ++ [.indexOnly] ↔ .noStats ∈ items := mem_concat_of_ne nofun
    simp only [Item.apply, said, hother, hcommands, mem_concat_self, hdebug, hstats, if_true]
  | noStats =>
    have hother (o : Valued) : given (items ++ [.noStats]) o = given items o :=
      given_concat_of_none rfl
    have hcommands : commandsOf (items ++ [.noStats]) = commandsOf items := commandsOf_concat_of_none rfl
    have hdebug : Item.debug ∈ items ++ [.noStats] ↔ .debug ∈ items := mem_concat_of_ne nofun
    have hindex : Item.indexOnly ∈ items ++ [.noStats] ↔ .indexOnly ∈ items := mem_concat_of_ne nofun
    -- `--debug` wins, whether it comes before or after
    by_cases h' : .debug ∈ items
    · have hset : (said indexpairs items none).statsredir ≠ [] := by
        simp only [said, if_pos h']
        decide
      rw [Item.apply, Params.noStats, if_neg hset]
      simp only [said, hother, hcommands, hdebug, hindex, h', if_true]
    · by_cases hstats : .noStats ∈ items
      · have hset : (said indexpairs items none).statsredir ≠ [] := by
          simp only [said, if_neg h', if_pos hstats]
          decide
        rw [Item.apply, Params.noStats, if_neg hset]
        simp only [said, hother, hcommands, mem_concat_self, hdebug, hindex, h', hstats, if_true]
      · have hset : (said indexpairs items none).statsredir = [] := by
          simp only [said, if_neg h', if_neg hstats]
        rw [Item.apply, Params.noStats, if_pos hset]
        simp only [said, hother, hcommands, mem_concat_self, hdebug, hindex, h', if_true, if_false]
  | command c =>
    have hother (o : Valued) : given (items ++ [.command c]) o = given items o :=
      given_concat_of_none rfl
    have hcommands : commandsOf (items ++ [.command c]) = commandsOf items ++ [c] :=
      commandsOf_concat _
    have hdebug : Item.debug ∈ items ++ [.command c] ↔ .debug ∈ items := mem_concat_of_ne nofun
    have hstats : Item.noStats ∈ items ++ [.command c] ↔ .noStats ∈ items := mem_concat_of_ne nofun
    have hindex : Item.indexOnly ∈ items ++ [.command c] ↔ .indexOnly ∈ items := mem_concat_of_ne nofun
    simp only [Item.apply, said, hother, hcommands, hdebug, hstats, hindex]

theorem allowed_iff (indexpairs : Text) (hvalues : ValuesGiven items) :
    i.Allowed (said indexpairs items none) ↔
      ∀ o ∈ i.option, o ∉ items.filterMap Item.option := by
  cases i with
  | valued o v =>
    rw [Item.Allowed, get_said, given_eq_nil_iff hvalues]
    simp [Item.option]
  | _ => simp [Item.Allowed, Item.option]

/-- Each option is given at most once. -/
theorem allAllowed_iff (indexpairs : Text) (before : List Item)
    (hvalues : ValuesGiven (before ++ items)) (hbefore : (before.filterMap Item.option).Nodup) :
    AllAllowed (said indexpairs before none) items ↔
      ((before ++ items).filterMap Item.option).Nodup := by
  induction items generalizing before with
  | nil => simpa [AllAllowed] using hbefore
  | cons i items ih =>
    have hvaluesBefore : ValuesGiven before :=
      fun o v hi => hvalues o v (List.mem_append_left _ hi)
    have hsplit : before ++ i :: items = (before ++ [i]) ++ items := List.append_cons _ _ _
    have hconcat : ((before ++ [i]).filterMap Item.option).Nodup ↔
        i.Allowed (said indexpairs before none) := by
      rw [allowed_iff indexpairs hvaluesBefore, List.filterMap_append]
      cases hoption : i.option with
      | none => simpa [hoption] using hbefore
      | some o =>
        have happend : ([i] : List Item).filterMap Item.option = [o] := by simp [hoption]
        rw [happend, List.nodup_append_comm, List.singleton_append, List.nodup_cons]
        simp only [Option.mem_def, Option.some.injEq, forall_eq', hbefore, and_true]
    rw [hsplit] at hvalues ⊢
    rw [AllAllowed]
    constructor
    · rintro ⟨hi, hitems⟩
      rw [apply_said indexpairs hvaluesBefore hi] at hitems
      exact (ih (before ++ [i]) hvalues (hconcat.mpr hi)).mp hitems
    · intro hnodup
      have hprefix : ((before ++ [i]).filterMap Item.option).Nodup := by
        rw [List.filterMap_append] at hnodup
        exact (List.nodup_append.mp hnodup).1
      have hi := hconcat.mp hprefix
      refine ⟨hi, ?_⟩
      rw [apply_said indexpairs hvaluesBefore hi]
      exact (ih (before ++ [i]) hvalues hprefix).mpr hnodup

theorem applyAll_said (indexpairs : Text) (before : List Item)
    (hvalues : ValuesGiven (before ++ items))
    (hitems : AllAllowed (said indexpairs before none) items) :
    applyAll (said indexpairs before none) items = said indexpairs (before ++ items) none := by
  induction items generalizing before with
  | nil => rw [List.append_nil]; rfl
  | cons i items ih =>
    have hvaluesBefore : ValuesGiven before :=
      fun o v hi => hvalues o v (List.mem_append_left _ hi)
    have happly := apply_said indexpairs hvaluesBefore hitems.1
    have hrest := hitems.2
    rw [happly] at hrest
    rw [List.append_cons] at hvalues ⊢
    rw [← ih (before ++ [i]) hvalues hrest, ← happly]
    rfl

end Order

theorem valuesGiven_of_words {cl : CommandLine} (h : ∀ w ∈ cl.words, w ≠ []) :
    ValuesGiven cl.items := by
  intro o v hi
  refine h v (List.mem_append_left _ (List.mem_flatMap.mpr ⟨_, hi, ?_⟩))
  simp [Item.words]

/-- The loop accepts the command lines that are well formed. -/
theorem parseCmdline_eq_some_iff {indexpairs : Text} {words : List Text} {p : Params}
    (hwords : ∀ w ∈ words, w ≠ []) :
    parseCmdline (initParams indexpairs) words = some p ↔
      ∃ cl : CommandLine, cl.WellFormed ∧ cl.words = words ∧ p = said indexpairs cl.items cl.path := by
  have hstart : initParams indexpairs = said indexpairs [] none := rfl
  have hpaths (items : List Item) (path : Option Text) :
      withPath path (said indexpairs items none) = said indexpairs items path := by
    cases path <;> rfl
  rw [hstart]
  constructor
  · intro h
    obtain ⟨items, path, rfl, hitems, hcommands, hpath, rfl⟩ := items_of_parseCmdline words h
    have hvalues : ValuesGiven items := @valuesGiven_of_words ⟨items, path⟩ hwords
    have honce := (allAllowed_iff indexpairs [] hvalues List.nodup_nil).mp hitems
    have happly : applyAll (said indexpairs [] none) items = said indexpairs items none :=
      applyAll_said indexpairs [] hvalues hitems
    rw [happly] at hcommands hpath ⊢
    exact ⟨⟨items, path⟩, ⟨honce, hcommands, hpath⟩, rfl, hpaths items path⟩
  · rintro ⟨⟨items, path⟩, hcl, rfl, rfl⟩
    have hvalues : ValuesGiven items := valuesGiven_of_words hwords
    have hitems := (allAllowed_iff indexpairs [] hvalues List.nodup_nil).mpr hcl.once
    have happly : applyAll (said indexpairs [] none) items = said indexpairs items none :=
      applyAll_said indexpairs [] hvalues hitems
    have hcommands : (applyAll (said indexpairs [] none) items).commands ≠ [] := by
      rw [happly]
      exact hcl.commands
    have hpath : PathAllowed (applyAll (said indexpairs [] none) items) path := by
      rw [happly]
      exact hcl.path
    have hend := parseCmdline_items hitems hcommands hpath
    rw [happly, hpaths] at hend
    exact hend

end DeltaPorts.Portsnap.Parameters
