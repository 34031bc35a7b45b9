import Hmon.Config.Scanner
import Hmon.Lib.Strtok

/-!
# The command line of `hmon` (`main.c`)

* `PerfOption`, `OptId`, `initial` : the options with their defaults; `setOption` : one use of an option;
* `readOptions` : the loop of `main` over `argv`, whose cells end with NULL;
* `Use`, `Ending` : the parts of a command line; `afterUses` : the options after some uses, by their last values;
* `command_line` : **the loop reads every command line of such parts, within `argv`, and every command line is one**.
-/

namespace Hmon.Main
open Lib Config

/-! ## Options -/

/-- The type of an option with the member of the union that it uses. -/
inductive TypedValue
  | bool (n : Int)
  | string (s : Option Text)
  | int (n : Int)
  deriving DecidableEq

structure PerfOption where
  name : Text
  shortName : Text
  value : TypedValue
  defVal : Text
  set : Bool
  deriving DecidableEq

/-- The static variables. -/
inductive OptId
  | help
  | input
  | plugins
  | perf
  | restrict
  | pid
  | refresh
  | display
  deriving DecidableEq

def initial : OptId → PerfOption
  | .help => ⟨"--help".toList, "-h".toList, .bool 0, "0".toList, false⟩
  | .input => ⟨"--input".toList, "-i".toList, .string none, "NULL".toList, false⟩
  | .plugins => ⟨"--list-plugins".toList, "-l".toList, .bool 0, "0".toList, false⟩
  | .perf => ⟨"--perf-event".toList, "-pe".toList, .string none, "NULL".toList, false⟩
  | .restrict => ⟨"--restrict".toList, "-r".toList, .string none, "Machine:0".toList, false⟩
  | .pid => ⟨"--pid".toList, "-p".toList, .int (-1), "-1".toList, false⟩
  | .refresh => ⟨"--frequency".toList, "-f".toList, .int 100000, "100000".toList, false⟩
  | .display => ⟨"--display-topology".toList, "-d".toList, .bool 0, "0".toList, false⟩

/-- The array `options` of `main`. -/
def options : List OptId := [.input, .refresh, .help, .pid, .display, .restrict, .plugins, .perf]

/-- `!n` -/
def lnot (n : Int) : Int := if n = 0 then 1 else 0

/-- `set_option`: the option, the number of arguments that it takes, and whether it reports that there is none. -/
def setOption (opt : PerfOption) (val : Option Text) : PerfOption × Nat × Bool :=
  match opt.value, val with
  | .int _, some v => ({ opt with value := .int (atoiText v), set := true }, 1, false)
  | .int _, none => ({ opt with set := true }, 1, false)
  | .bool n, _ => ({ opt with set := true, value := .bool (lnot n) }, 0, false)
  | .string _, some v => ({ opt with set := true, value := .string (some v) }, 1, false)
  | .string _, none => ({ opt with set := true }, 0, true)

/-! ## The loop over `argv` -/

inductive ArgvFault
  | outOfBounds
  | null
  deriving DecidableEq

/-- A cell of `argv`; behind the arguments stands NULL. -/
def argvCell (argv : List Text) (i : Nat) : Except ArgvFault (Option Text) :=
  if i ≤ argv.length then .ok argv[i]? else .error .outOfBounds

/-- A cell that is read as a string. -/
def argvString (argv : List Text) (i : Nat) : Except ArgvFault Text :=
  match argvCell argv i with
  | .ok (some s) => .ok s
  | .ok none => .error .null
  | .error e => .error e

abbrev Store := OptId → PerfOption

/-- What the loop leaves: the options, the messages on arguments that are missing, `runnable` and the cell that
`run_args` points at; or it exits on a bad option. -/
inductive Parsed
  | read (opts : Store) (missing : List Text) (runnable : Option Text) (runArgs : Option Nat)
  | bad (arg : Text) (missing : List Text)

def named (arg : Text) (opt : PerfOption) : Bool := arg == opt.name || arg == opt.shortName

/-- `while(argc > 1)`, with `argv` pointing at the cell `p`; `none` if it is still running. -/
def optionLoop (argv : List Text) : (fuel : Nat) → (argc : Int) → (p : Nat) → Store → List Text →
    Option (Except ArgvFault Parsed)
  | 0, _, _, _, _ => none
  | fuel + 1, argc, p, opts, ms =>
    if 1 < argc then
      match argvString argv (p + 1) with
      | .error e => some (.error e)
      | .ok arg =>
        match options.find? fun i => named arg (opts i) with
        | some i =>
          match argvCell argv (p + 2) with
          | .error e => some (.error e)
          | .ok val =>
            match setOption (opts i) val with
            | (opt, optarg, reports) =>
              optionLoop argv fuel (argc - 1 - optarg) (p + 1 + optarg) (Function.update opts i opt)
                (if reports then ms ++ [opt.name] else ms)
        | none =>
          if arg = "--".toList then
            match argvCell argv (p + 2) with
            | .error e => some (.error e)
            | .ok val => some (.ok (.read opts ms val (some (p + 2))))
          else some (.ok (.bad arg ms))
    else some (.ok (.read opts ms none none))

def readOptions (argv : List Text) : Option (Except ArgvFault Parsed) :=
  optionLoop argv (argv.length + 1) argv.length 0 initial []

/-! ## The parts of a command line -/

def takesValue (i : OptId) : Bool :=
  match (initial i).value with
  | .bool _ => false
  | _ => true

def spelling (i : OptId) (short : Bool) : Text := if short then (initial i).shortName else (initial i).name

/-- An option with its value. -/
inductive Use
  | flag (i : OptId) (short : Bool) (h : takesValue i = false)
  | valued (i : OptId) (short : Bool) (v : Text) (h : takesValue i = true)

def Use.id : Use → OptId
  | flag i _ _ => i
  | valued i _ _ _ => i

def Use.value : Use → Option Text
  | flag _ _ _ => none
  | valued _ _ v _ => some v

def Use.words : Use → List Text
  | flag i short _ => [spelling i short]
  | valued i short v _ => [spelling i short, v]

/-- No option, and not the mark before a command. -/
def Unknown (arg : Text) : Prop := arg ≠ "--".toList ∧ ∀ i short, arg ≠ spelling i short

/-- What stands behind the options. -/
inductive Ending
  | done
  | missing (i : OptId) (short : Bool) (h : takesValue i = true)
  | command (cmd : List Text)
  | bad (arg : Text) (rest : List Text) (h : Unknown arg)

def Ending.words : Ending → List Text
  | done => []
  | missing i short _ => [spelling i short]
  | command cmd => "--".toList :: cmd
  | bad arg rest _ => arg :: rest

/-- An option after its uses `us`: the last value, or the parity of a flag. -/
def PerfOption.after (opt : PerfOption) (us : List Use) : PerfOption := { opt with
  set := opt.set || !us.isEmpty
  value := match opt.value with
    | .bool n => .bool (if us.length % 2 = 0 then n else lnot n)
    | .string s => .string ((us.getLast?.bind Use.value).or s)
    | .int n => .int (((us.getLast?.bind Use.value).map atoiText).getD n) }

def afterUses (uses : List Use) : Store := fun i => (initial i).after (uses.filter fun u => u.id = i)

/-- What the loop leaves, with the options `opts` before the ending, which starts at the cell `p`. -/
def Ending.result (opts : Store) (p : Nat) : Ending → Parsed
  | done => .read opts [] none none
  | missing i _ _ => .read (Function.update opts i { opts i with set := true })
      (match (opts i).value with
        | .string _ => [(opts i).name]
        | _ => []) none none
  | command cmd => .read opts [] cmd.head? (some (p + 1))
  | bad arg _ _ => .bad arg []

/-! ## One use -/

theorem argvCell_append (pre rest : List Text) : argvCell (pre ++ rest) pre.length = .ok rest.head? := by
  unfold argvCell
  rw [if_pos (by simp), List.getElem?_append_right le_rfl, Nat.sub_self, List.head?_eq_getElem?]

theorem argvString_append (pre : List Text) (arg : Text) (rest : List Text) :
    argvString (pre ++ arg :: rest) pre.length = .ok arg := by
  unfold argvString
  rw [argvCell_append]
  rfl

theorem argvCell_append_one (pre : List Text) (arg : Text) (rest : List Text) :
    argvCell (pre ++ arg :: rest) (pre.length + 1) = .ok rest.head? := by
  have := argvCell_append (pre ++ [arg]) rest
  rwa [List.append_assoc, List.length_append] at this

/-- The spellings of the options differ. -/
theorem find_spelling (d : List Use) (i : OptId) (short : Bool) :
    (options.find? fun j => named (spelling i short) (afterUses d j)) = some i := by
  have hnamed : ∀ j, named (spelling i short) (afterUses d j) = named (spelling i short) (initial j) := fun j => rfl
  simp only [hnamed]
  cases i <;> cases short <;> rfl

theorem find_unknown (d : List Use) {arg : Text} (h : ∀ i short, arg ≠ spelling i short) :
    (options.find? fun j => named arg (afterUses d j)) = none := by
  refine List.find?_eq_none.mpr fun j _ hj => ?_
  rcases (Bool.or_eq_true _ _).mp hj with hj | hj
  · exact h j false (beq_iff_eq.mp hj)
  · exact h j true (beq_iff_eq.mp hj)

theorem mark_unknown (i : OptId) (short : Bool) : "--".toList ≠ spelling i short := by
  cases i <;> cases short <;> decide

theorem afterUses_nil : afterUses [] = initial := by
  funext i
  cases i <;> rfl

/-- The options after one more use. -/
theorem afterUses_snoc (d : List Use) (u : Use) :
    Function.update (afterUses d) u.id ((initial u.id).after ((d.filter fun v => v.id = u.id) ++ [u])) =
      afterUses (d ++ [u]) := by
  funext j
  by_cases hj : j = u.id
  · subst hj
    simp [afterUses]
  · rw [Function.update_of_ne hj]
    simp [afterUses, Ne.symm hj]

theorem lnot_parity (k : Nat) : lnot (if k % 2 = 0 then 0 else lnot 0) = if (k + 1) % 2 = 0 then 0 else lnot 0 := by
  rcases Nat.mod_two_eq_zero_or_one k with hk | hk
  · have hs : (k + 1) % 2 ≠ 0 := by omega
    rw [if_pos hk, if_neg hs]
  · have hs : (k + 1) % 2 = 0 := by omega
    rw [if_neg (by omega), if_pos hs]
    rfl

/-- What `set_option` makes of an option after the uses `us`. -/
theorem setOption_after (us : List Use) (u : Use) (val : Option Text) (h : ∀ v, u.value = some v → val = some v) :
    setOption ((initial u.id).after us) val = ((initial u.id).after (us ++ [u]), u.words.length - 1, false) := by
  cases u with
  | flag i short hi =>
    have hvalue : (initial i).value = .bool 0 := by cases i <;> first | rfl | cases hi
    simp [setOption, PerfOption.after, Use.id, Use.words, hvalue, lnot_parity]
  | valued i short v hi =>
    rw [h v rfl]
    cases hvalue : (initial i).value with
    | bool n =>
      unfold takesValue at hi
      rw [hvalue] at hi
      cases hi
    | string s => simp [setOption, PerfOption.after, Use.id, Use.words, Use.value, hvalue]
    | int n => simp [setOption, PerfOption.after, Use.id, Use.words, Use.value, hvalue]

/-- Uses do not change the type of an option. -/
theorem after_not_bool {i : OptId} (h : takesValue i = true) (us : List Use) (n : Int) :
    ((initial i).after us).value ≠ .bool n := by
  intro he
  unfold takesValue at h
  unfold PerfOption.after at he
  cases hvalue : (initial i).value with
  | bool m =>
    rw [hvalue] at h
    cases h
  | string s =>
    simp only [hvalue] at he
    cases he
  | int m =>
    simp only [hvalue] at he
    cases he

/-! ## The loop -/

theorem Use.words_eq (u : Use) : ∃ short, u.words = spelling u.id short :: u.value.toList := by
  cases u with
  | flag i short h => exact ⟨short, rfl⟩
  | valued i short v h => exact ⟨short, rfl⟩

/-- One iteration reads one use. -/
theorem optionLoop_use (d : List Use) (u : Use) {pre : List Text} (rest : List Text) {p : Nat} (hp : pre.length = p + 1)
    (fuel : Nat) (ms : List Text) :
    optionLoop (pre ++ (u.words ++ rest)) (fuel + 1) (1 + (u.words ++ rest).length : Nat) p (afterUses d) ms =
      optionLoop (pre ++ (u.words ++ rest)) fuel (1 + rest.length : Nat) (p + u.words.length) (afterUses (d ++ [u]))
        ms := by
  obtain ⟨short, hwords⟩ := u.words_eq
  have hlen : u.words.length = 1 + u.value.toList.length := by rw [hwords, List.length_cons, Nat.add_comm]
  have harg : argvString (pre ++ (u.words ++ rest)) (p + 1) = .ok (spelling u.id short) := by
    rw [← hp, hwords]
    exact argvString_append pre _ _
  have hval : argvCell (pre ++ (u.words ++ rest)) (p + 2) = .ok (u.value.toList ++ rest).head? := by
    rw [show p + 2 = pre.length + 1 by omega, hwords]
    exact argvCell_append_one pre _ _
  have hset := setOption_after (d.filter fun v => v.id = u.id) u (u.value.toList ++ rest).head? fun v hv => by
    rw [hv]
    rfl
  have hstore : afterUses d u.id = (initial u.id).after (d.filter fun v => v.id = u.id) := rfl
  have hgo : (1 : Int) < (1 + (u.words ++ rest).length : Nat) := by
    rw [List.length_append]
    omega
  rw [optionLoop, if_pos hgo, harg]
  simp only [find_spelling, hval, hstore, hset, afterUses_snoc, Bool.false_eq_true, if_false]
  congr 1
  · rw [List.length_append]
    omega
  · omega

/-- The loop reads the uses one by one. -/
theorem optionLoop_uses (d uses : List Use) {pre : List Text} (rest : List Text) {p : Nat} (hp : pre.length = p + 1)
    (fuel : Nat) (ms : List Text) :
    optionLoop (pre ++ (uses.flatMap Use.words ++ rest)) (fuel + uses.length)
        (1 + (uses.flatMap Use.words ++ rest).length : Nat) p (afterUses d) ms =
      optionLoop (pre ++ (uses.flatMap Use.words ++ rest)) fuel (1 + rest.length : Nat)
        (p + (uses.flatMap Use.words).length) (afterUses (d ++ uses)) ms := by
  induction uses generalizing d pre p with
  | nil => simp
  | cons u uses ih =>
    have hone := optionLoop_use d u (uses.flatMap Use.words ++ rest) hp (fuel + uses.length) ms
    have hpre : (pre ++ u.words).length = p + u.words.length + 1 := by rw [List.length_append]; omega
    have hmore := ih (d ++ [u]) hpre
    simp only [List.append_assoc, List.singleton_append] at hmore
    simp only [List.flatMap_cons, List.append_assoc, List.length_cons]
    rw [← Nat.add_assoc, hone, hmore, List.length_append, Nat.add_assoc]

/-- The last iteration. -/
theorem optionLoop_ending (d : List Use) (e : Ending) {pre : List Text} {p : Nat} (hp : pre.length = p + 1)
    (fuel : Nat) : optionLoop (pre ++ e.words) (fuel + 2) (1 + e.words.length : Nat) p (afterUses d) [] =
      some (.ok (e.result (afterUses d) (p + 1))) := by
  cases e with
  | done => rfl
  | missing i short h =>
    have harg : argvString (pre ++ [spelling i short]) (p + 1) = .ok (spelling i short) := by
      rw [← hp]
      exact argvString_append pre _ _
    have hval : argvCell (pre ++ [spelling i short]) (p + 2) = .ok none := by
      rw [show p + 2 = pre.length + 1 by omega]
      exact argvCell_append_one pre _ _
    rw [optionLoop, if_pos (by simp [Ending.words])]
    simp only [Ending.words, harg, find_spelling, hval]
    cases hvalue : (afterUses d i).value with
    | bool n => exact absurd hvalue (after_not_bool h _ n)
    | string s => simp [setOption, hvalue, optionLoop, Ending.result]
    | int n => simp [setOption, hvalue, optionLoop, Ending.result]
  | command cmd =>
    have harg : argvString (pre ++ "--".toList :: cmd) (p + 1) = .ok "--".toList := by
      rw [← hp]
      exact argvString_append pre _ _
    have hval : argvCell (pre ++ "--".toList :: cmd) (p + 2) = .ok cmd.head? := by
      rw [show p + 2 = pre.length + 1 by omega]
      exact argvCell_append_one pre _ _
    rw [optionLoop, if_pos (by simp [Ending.words])]
    simp only [Ending.words, harg, find_unknown d mark_unknown, hval, if_true]
    rfl
  | bad arg rest h =>
    have harg : argvString (pre ++ arg :: rest) (p + 1) = .ok arg := by
      rw [← hp]
      exact argvString_append pre _ _
    rw [optionLoop, if_pos (by simp [Ending.words])]
    simp only [Ending.words, harg, find_unknown d h.2, h.1, if_false]
    rfl

/-! ## Every command line -/

theorem words_length (u : Use) : 1 ≤ u.words.length := by
  obtain ⟨short, hwords⟩ := u.words_eq
  rw [hwords]
  exact Nat.succ_pos _

theorem length_uses_le (uses : List Use) : uses.length ≤ (uses.flatMap Use.words).length := by
  induction uses with
  | nil => rfl
  | cons u uses ih =>
    have := words_length u
    rw [List.flatMap_cons, List.length_append, List.length_cons]
    omega

/-- A command line of uses and an ending is read so. -/
theorem readOptions_parts (prog : Text) (uses : List Use) (e : Ending) :
    readOptions (prog :: (uses.flatMap Use.words ++ e.words)) =
      some (.ok (e.result (afterUses uses) (1 + (uses.flatMap Use.words).length))) := by
  have hlen := length_uses_le uses
  obtain ⟨fuel, hfuel⟩ : ∃ fuel, (prog :: (uses.flatMap Use.words ++ e.words)).length + 1 = fuel + 2 + uses.length := by
    rw [List.length_cons, List.length_append]
    exact ⟨(uses.flatMap Use.words).length + e.words.length - uses.length, by omega⟩
  have hprog : [prog].length = 0 + 1 := rfl
  have hread : (prog :: uses.flatMap Use.words).length = (uses.flatMap Use.words).length + 1 := rfl
  have huses := optionLoop_uses [] uses e.words hprog (fuel + 2) []
  have hending := optionLoop_ending uses e hread fuel
  have hargc : (prog :: (uses.flatMap Use.words ++ e.words)).length = 1 + (uses.flatMap Use.words ++ e.words).length := by
    rw [List.length_cons, Nat.add_comm]
  unfold readOptions
  rw [hfuel, hargc, ← afterUses_nil]
  refine huses.trans ?_
  rw [Nat.zero_add, Nat.add_comm 1 (uses.flatMap Use.words).length]
  exact hending

/-- Every list of arguments has such parts. -/
theorem exists_parts (args : List Text) : ∃ (uses : List Use) (e : Ending), args = uses.flatMap Use.words ++ e.words := by
  induction hn : args.length using Nat.strongRecOn generalizing args with
  | ind n ih =>
    cases args with
    | nil => exact ⟨[], .done, rfl⟩
    | cons arg rest =>
      have hrest : rest.length < n := by rw [← hn]; exact Nat.lt_succ_self _
      by_cases hspelled : ∃ i short, arg = spelling i short
      · obtain ⟨i, short, rfl⟩ := hspelled
        cases htakes : takesValue i with
        | false =>
          obtain ⟨uses, e, rfl⟩ := ih _ hrest rest rfl
          exact ⟨.flag i short htakes :: uses, e, rfl⟩
        | true =>
          cases rest with
          | nil => exact ⟨[], .missing i short htakes, rfl⟩
          | cons v rest =>
            obtain ⟨uses, e, rfl⟩ := ih _ (Nat.lt_of_succ_lt hrest) rest rfl
            exact ⟨.valued i short v htakes :: uses, e, rfl⟩
      · by_cases hmark : arg = "--".toList
        · exact ⟨[], .command rest, by rw [hmark]; rfl⟩
        · exact ⟨[], .bad arg rest ⟨hmark, fun i short he => hspelled ⟨i, short, he⟩⟩, rfl⟩

/-- **Every command line consists of uses of options and an ending, and is read as such**: an option has the value of its
last use, what stands behind `--` is left alone, and `argv` is read up to its NULL. -/
theorem command_line (prog : Text) (args : List Text) : ∃ (uses : List Use) (e : Ending),
    args = uses.flatMap Use.words ++ e.words ∧
      readOptions (prog :: args) = some (.ok (e.result (afterUses uses) (1 + (uses.flatMap Use.words).length))) := by
  obtain ⟨uses, e, rfl⟩ := exists_parts args
  exact ⟨uses, e, rfl, readOptions_parts prog uses e⟩

end Hmon.Main
