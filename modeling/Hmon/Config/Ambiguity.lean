import Hmon.Config.Expr
import Mathlib.Algebra.GroupWithZero.Nat

/-!
# The ambiguity of the expressions (`commutative_expr`, `concat_expr` in `parser.y`)

* `concatExpr` : `concat_expr` with its buffer; `concatExpr_eq` : it concatenates strings;
* `Computes` : the derivations of an expression with what their actions compute; `computes_iff` : the same derivations
  as `Derives`;
* `ambiguity_harmless` : **every derivation computes the strings of the tokens in their order, and every sequence of
  terms with operators between them has a derivation**.
-/

namespace Hmon.Config

/-! ## `concat_expr` -/

/-- `sprintf(ret+c, "%s", str)` -/
def sprintfAt (ret : Text) (c : Nat) (str : Text) : Text :=
  ret.take c ++ (str ++ '\x00' :: ret.drop (c + str.length + 1))

/-- The second loop. -/
def concatLoop : List Text → (ret : Text) → (c : Nat) → Text
  | [], ret, _ => ret
  | str :: strs, ret, c => concatLoop strs (sprintfAt ret c str) (c + str.length)

/-- The first loop. -/
def concatSize (strs : List Text) : Nat := (strs.map fun str => 1 + str.length).sum

/-- `concat_expr`: the string in the buffer, up to its NUL. -/
def concatExpr (strs : List Text) : Text :=
  (concatLoop strs (List.replicate (concatSize strs) '\x00') 0).takeWhile (· ≠ '\x00')

/-- A string is written over the first NULs. -/
theorem sprintfAt_nuls (done str : Text) (n : Nat) :
    sprintfAt (done ++ List.replicate (1 + str.length + n) '\x00') done.length str =
      done ++ str ++ List.replicate (1 + n) '\x00' := by
  have hdrop : (done ++ List.replicate (1 + str.length + n) '\x00').drop (done.length + str.length + 1) =
      List.replicate n '\x00' := by
    rw [Nat.add_assoc, List.drop_length_add_append, List.drop_replicate]
    congr 1
    omega
  unfold sprintfAt
  rw [List.take_left, hdrop, Nat.add_comm 1 n, List.replicate_succ, List.append_assoc]

/-- The buffer is large enough for the strings and leaves one NUL for each. -/
theorem concatLoop_eq (strs : List Text) (done : Text) (n : Nat) :
    concatLoop strs (done ++ List.replicate (concatSize strs + n) '\x00') done.length =
      done ++ strs.flatten ++ List.replicate (strs.length + n) '\x00' := by
  induction strs generalizing done n with
  | nil => simp [concatLoop, concatSize]
  | cons str strs ih =>
    have hsize : concatSize (str :: strs) + n = 1 + str.length + (concatSize strs + n) := by
      simp [concatSize]
      omega
    have hnext : 1 + (concatSize strs + n) = concatSize strs + (n + 1) := by omega
    rw [concatLoop, hsize, sprintfAt_nuls, hnext, ← List.length_append, ih, List.flatten_cons, List.length_cons,
      List.append_assoc done str, Nat.add_assoc, Nat.add_comm 1 n]

theorem concatExpr_eq {strs : List Text} (h : ∀ str ∈ strs, '\x00' ∉ str) : concatExpr strs = strs.flatten := by
  have hloop := concatLoop_eq strs [] 0
  have hflat : ∀ c ∈ strs.flatten, decide (c ≠ '\x00') = true := by
    intro c hc
    obtain ⟨str, hstr, hmem⟩ := List.mem_flatten.mp hc
    exact decide_eq_true fun heq => h str hstr (heq ▸ hmem)
  unfold concatExpr
  rw [List.nil_append, List.length_nil, Nat.add_zero] at hloop
  rw [hloop, List.nil_append, List.takeWhile_append_of_pos hflat, List.takeWhile_replicate]
  simp

/-! ## The actions -/

/-- The string of a token: its semantic value, and of a character the character itself. -/
def Token.string : Token → Text
  | .name s | .perfCtr s | .netCtr s | .var s | .path s | .integer s | .real s => s
  | .char c => [c]
  | _ => []

/-- The productions with their actions. -/
inductive Computes : Sym → List Token → Text → Prop
  | var (s : Text) : Computes .term [.var s] s
  | integer (s : Text) : Computes .term [.integer s] s
  | real (s : Text) : Computes .term [.real s] s
  | paren {ts : List Token} {x : Text} : Computes .commutativeExpr ts x →
      Computes .term (.char '(' :: ts ++ [.char ')']) (concatExpr [['('], x, [')']])
  | terms {ts us : List Token} {x y : Text} {o : Char} : Computes .term ts x → associativeOp o = true →
      Computes .term us y → Computes .associativeExpr (ts ++ .char o :: us) (concatExpr [x, [o], y])
  | associative {ts us : List Token} {x y : Text} {o : Char} : Computes .associativeExpr ts x →
      associativeOp o = true → Computes .associativeExpr us y →
      Computes .associativeExpr (ts ++ .char o :: us) (concatExpr [x, [o], y])
  | ofTerm {ts : List Token} {x : Text} : Computes .term ts x → Computes .associativeExpr ts x
  | ofAssociative {ts : List Token} {x : Text} : Computes .associativeExpr ts x → Computes .commutativeExpr ts x
  | associatives {ts us : List Token} {x y : Text} {o : Char} : Computes .associativeExpr ts x →
      commutativeOp o = true → Computes .associativeExpr us y →
      Computes .commutativeExpr (ts ++ .char o :: us) (concatExpr [x, [o], y])
  | commutative {ts us : List Token} {x y : Text} {o : Char} : Computes .commutativeExpr ts x →
      commutativeOp o = true → Computes .commutativeExpr us y →
      Computes .commutativeExpr (ts ++ .char o :: us) (concatExpr [x, [o], y])

/-- The strings of the tokens are C strings. -/
def CStrings (ts : List Token) : Prop := ∀ t ∈ ts, '\x00' ∉ t.string

section Text
variable {ts us : List Token} {x y : Text} {o : Char}

theorem CStrings.not_mem (h : CStrings ts) : '\x00' ∉ ts.flatMap Token.string := by
  intro hmem
  obtain ⟨t, ht, hc⟩ := List.mem_flatMap.mp hmem
  exact h t ht hc

theorem cstrings_append : CStrings (ts ++ us) ↔ CStrings ts ∧ CStrings us := List.forall_mem_append

theorem concatExpr_three {z : Text} (hx : '\x00' ∉ x) (hy : '\x00' ∉ y) (hz : '\x00' ∉ z) :
    concatExpr [x, y, z] = x ++ (y ++ z) := by
  have hall : ∀ str ∈ [x, y, z], '\x00' ∉ str := by
    rw [List.forall_mem_cons, List.forall_mem_cons, List.forall_mem_singleton]
    exact ⟨hx, hy, hz⟩
  rw [concatExpr_eq hall]
  simp

/-- The action of a production with an operator, on the strings of its operands. -/
theorem concatExpr_operator (h : CStrings (ts ++ .char o :: us)) :
    concatExpr [ts.flatMap Token.string, [o], us.flatMap Token.string] =
      (ts ++ .char o :: us).flatMap Token.string := by
  obtain ⟨hts, hus⟩ := cstrings_append.mp h
  have ho : '\x00' ∉ [o] := hus _ List.mem_cons_self
  have hus : CStrings us := fun t ht => hus t (List.mem_cons_of_mem _ ht)
  rw [concatExpr_three hts.not_mem ho hus.not_mem, List.flatMap_append, List.flatMap_cons]
  rfl

theorem concatExpr_paren (h : CStrings ts) : concatExpr [['('], ts.flatMap Token.string, [')']] =
    (Token.char '(' :: ts ++ [Token.char ')']).flatMap Token.string := by
  rw [concatExpr_three (by decide) h.not_mem (by decide), List.flatMap_append, List.flatMap_cons, List.append_assoc]
  rfl

/-- Every derivation computes the strings of the tokens, one after the other. -/
theorem Computes.text {s : Sym} (h : Computes s ts x) (hc : CStrings ts) : x = ts.flatMap Token.string := by
  have hright {us vs : List Token} {o : Char} (hc : CStrings (us ++ .char o :: vs)) : CStrings us ∧ CStrings vs :=
    ⟨(cstrings_append.mp hc).1, fun t ht => (cstrings_append.mp hc).2 t (List.mem_cons_of_mem _ ht)⟩
  induction h with
  | var s | integer s | real s => simp [Token.string]
  | paren _ ih =>
    have hin := (cstrings_append.mp fun t ht => hc t (List.mem_cons_of_mem _ ht)).1
    rw [ih hin, concatExpr_paren hin]
  | ofTerm _ ih | ofAssociative _ ih => exact ih hc
  | terms _ _ _ ihl ihr | associative _ _ _ ihl ihr | associatives _ _ _ ihl ihr | commutative _ _ _ ihl ihr =>
    rw [ihl (hright hc).1, ihr (hright hc).2, concatExpr_operator hc]

theorem Derives.text {s : Sym} (h : Derives s ts x) : x = ts.flatMap Token.string := by
  induction h with
  | var s | integer s | real s => simp [Token.string]
  | paren _ ih => simp [Token.string, ← ih]
  | ofTerm _ ih | ofAssociative _ ih => exact ih
  | terms _ _ _ ihl ihr | associative _ _ _ ihl ihr | associatives _ _ _ ihl ihr | commutative _ _ _ ihl ihr =>
    simp [Token.string, ← ihl, ← ihr]

theorem Computes.exists_derives {s : Sym} (h : Computes s ts x) : ∃ y, Derives s ts y := by
  induction h with
  | var s => exact ⟨s, .var s⟩
  | integer s => exact ⟨s, .integer s⟩
  | real s => exact ⟨s, .real s⟩
  | paren _ ih => exact ih.imp' _ fun _ h => h.paren
  | ofTerm _ ih => exact ih.imp fun _ h => h.ofTerm
  | ofAssociative _ ih => exact ih.imp fun _ h => h.ofAssociative
  | terms _ ho _ ihl ihr => exact ihl.elim fun _ hl => ihr.elim fun _ hr => ⟨_, hl.terms ho hr⟩
  | associative _ ho _ ihl ihr => exact ihl.elim fun _ hl => ihr.elim fun _ hr => ⟨_, hl.associative ho hr⟩
  | associatives _ ho _ ihl ihr => exact ihl.elim fun _ hl => ihr.elim fun _ hr => ⟨_, hl.associatives ho hr⟩
  | commutative _ ho _ ihl ihr => exact ihl.elim fun _ hl => ihr.elim fun _ hr => ⟨_, hl.commutative ho hr⟩

theorem Derives.exists_computes {s : Sym} (h : Derives s ts x) : ∃ y, Computes s ts y := by
  induction h with
  | var s => exact ⟨s, .var s⟩
  | integer s => exact ⟨s, .integer s⟩
  | real s => exact ⟨s, .real s⟩
  | paren _ ih => exact ih.imp' _ fun _ h => h.paren
  | ofTerm _ ih => exact ih.imp fun _ h => h.ofTerm
  | ofAssociative _ ih => exact ih.imp fun _ h => h.ofAssociative
  | terms _ ho _ ihl ihr => exact ihl.elim fun _ hl => ihr.elim fun _ hr => ⟨_, hl.terms ho hr⟩
  | associative _ ho _ ihl ihr => exact ihl.elim fun _ hl => ihr.elim fun _ hr => ⟨_, hl.associative ho hr⟩
  | associatives _ ho _ ihl ihr => exact ihl.elim fun _ hl => ihr.elim fun _ hr => ⟨_, hl.associatives ho hr⟩
  | commutative _ ho _ ihl ihr => exact ihl.elim fun _ hl => ihr.elim fun _ hr => ⟨_, hl.commutative ho hr⟩

/-- On C strings, the derivations of `Derives` with the same texts. -/
theorem computes_iff {s : Sym} (hc : CStrings ts) : Computes s ts x ↔ Derives s ts x := by
  constructor
  · intro h
    obtain ⟨y, hy⟩ := h.exists_derives
    rwa [h.text hc, ← hy.text]
  · intro h
    obtain ⟨y, hy⟩ := h.exists_computes
    rwa [h.text, ← hy.text hc]

end Text

/-! ## Sequences of terms -/

def IsTerm (ts : List Token) : Prop := ∃ x, Computes .term ts x

def operator (o : Char) : Bool := associativeOp o || commutativeOp o

/-- A term, and more terms behind operators. -/
def termRun (t : List Token) (rest : List (Char × List Token)) : List Token :=
  t ++ rest.flatMap fun p => .char p.1 :: p.2

/-- An `associative_expr` before operators and terms. -/
theorem exists_computes {rest : List (Char × List Token)} (hrest : ∀ p ∈ rest, operator p.1 = true ∧ IsTerm p.2)
    {ts : List Token} (h : ∃ x, Computes .associativeExpr ts x) :
    ∃ x, Computes .commutativeExpr (termRun ts rest) x := by
  induction rest generalizing ts with
  | nil =>
    obtain ⟨x, hx⟩ := h
    exact ⟨x, by simpa [termRun] using hx.ofAssociative⟩
  | cons p rest ih =>
    obtain ⟨⟨hop, y, hy⟩, hrest⟩ := List.forall_mem_cons.mp hrest
    obtain ⟨x, hx⟩ := h
    rcases (Bool.or_eq_true _ _).mp hop with ho | ho
    · -- the operator is part of the `associative_expr`
      have hnext := ih hrest ⟨_, hx.associative ho hy.ofTerm⟩
      simpa [termRun] using hnext
    · obtain ⟨z, hz⟩ := ih hrest ⟨_, hy.ofTerm⟩
      have hboth := hx.ofAssociative.commutative ho hz
      exact ⟨concatExpr [x, [p.1], z], by simpa [termRun] using hboth⟩

/-- **Every derivation of an expression computes the strings of its tokens in their order, and every sequence of terms
with operators between them is derivable.** -/
theorem ambiguity_harmless :
    (∀ ts x, CStrings ts → Computes .commutativeExpr ts x → x = ts.flatMap Token.string) ∧
    ∀ t rest, IsTerm t → (∀ p ∈ rest, operator p.1 = true ∧ IsTerm p.2) →
      ∃ x, Computes .commutativeExpr (termRun t rest) x :=
  ⟨fun _ _ hc h => h.text hc, fun _ _ ⟨_, ht⟩ hrest => exists_computes hrest ⟨_, ht.ofTerm⟩⟩

/-- `$0 + 2 * $1` -/
theorem ambiguity_harmless_mixed : ∃ x, Computes .commutativeExpr
    [.var (varToReference "$0".toList), .char '+', .integer ['2'], .char '*', .var (varToReference "$1".toList)] x ∧
      x = "events[0]\n+2*events[1]\n".toList := by
  obtain ⟨x, hx⟩ := ambiguity_harmless.2 [.var (varToReference "$0".toList)]
    [('+', [.integer ['2']]), ('*', [.var (varToReference "$1".toList)])] ⟨_, .var _⟩ (by
      rw [List.forall_mem_cons, List.forall_mem_singleton]
      exact ⟨⟨rfl, _, .integer _⟩, rfl, _, .var _⟩)
  exact ⟨x, hx, (ambiguity_harmless.1 _ _ (by unfold CStrings; decide) hx).trans (by decide)⟩

end Hmon.Config
