import Hmon.Config.Scanner

/-!
# The expressions of a reduction (`commutative_expr` in `parser.y`)

* `Derives` : the productions of `term`, `associative_expr` and `commutative_expr` with their actions, as written;
* `CommCtx`, `AssocCtx`, `TermCtx` : the parser's stack inside one pair of parentheses, by the rules that its states
  are in the middle of; the grammar is ambiguous and the parser shifts where it could also reduce;
* `commExpr` : the parser of an expression;
* `commExpr_iff` : **it accepts exactly the derivable token lists, with the derived text**.
-/

namespace Hmon.Config

def associativeOp (c : Char) : Bool := c == '+' || c == '-'

def commutativeOp (c : Char) : Bool := c == '*' || c == '/'

inductive Sym
  | term
  | associativeExpr
  | commutativeExpr

/-- The productions. The text of an operator is the operator. -/
inductive Derives : Sym → List Token → Text → Prop
  | var (s : Text) : Derives .term [.var s] s
  | integer (s : Text) : Derives .term [.integer s] s
  | real (s : Text) : Derives .term [.real s] s
  | paren {ts : List Token} {x : Text} :
      Derives .commutativeExpr ts x → Derives .term (.char '(' :: ts ++ [.char ')']) ('(' :: x ++ [')'])
  | terms {ts us : List Token} {x y : Text} {o : Char} : Derives .term ts x → associativeOp o = true →
      Derives .term us y → Derives .associativeExpr (ts ++ .char o :: us) (x ++ o :: y)
  | associative {ts us : List Token} {x y : Text} {o : Char} : Derives .associativeExpr ts x →
      associativeOp o = true → Derives .associativeExpr us y →
      Derives .associativeExpr (ts ++ .char o :: us) (x ++ o :: y)
  | ofTerm {ts : List Token} {x : Text} : Derives .term ts x → Derives .associativeExpr ts x
  | ofAssociative {ts : List Token} {x : Text} : Derives .associativeExpr ts x → Derives .commutativeExpr ts x
  | associatives {ts us : List Token} {x y : Text} {o : Char} : Derives .associativeExpr ts x →
      commutativeOp o = true → Derives .associativeExpr us y →
      Derives .commutativeExpr (ts ++ .char o :: us) (x ++ o :: y)
  | commutative {ts us : List Token} {x y : Text} {o : Char} : Derives .commutativeExpr ts x →
      commutativeOp o = true → Derives .commutativeExpr us y →
      Derives .commutativeExpr (ts ++ .char o :: us) (x ++ o :: y)

/-! ## The stack -/

/-- Before a `commutative_expr`. -/
inductive CommCtx
  | start
  /-- `commutative_expr commutative_op . commutative_expr` -/
  | commutative (k : CommCtx) (x : Text) (o : Char)

/-- Before an `associative_expr`. -/
inductive AssocCtx
  | start (k : CommCtx)
  /-- `associative_expr commutative_op . associative_expr` -/
  | associatives (k : CommCtx) (x : Text) (o : Char)
  /-- `associative_expr associative_op . associative_expr` -/
  | associative (k : AssocCtx) (x : Text) (o : Char)

/-- Before a `term`. -/
inductive TermCtx
  | start (k : AssocCtx)
  /-- `term associative_op . term` -/
  | terms (k : AssocCtx) (x : Text) (o : Char)

/-- At the beginning of an expression. -/
def TermCtx.empty : TermCtx := .start (.start .start)

/-- A `commutative_expr` before `)`, `,` or `;`: the reductions up to the whole expression. -/
def CommCtx.reduce : CommCtx → Text → Text
  | start, y => y
  | commutative k x o, y => k.reduce (x ++ o :: y)

def AssocCtx.reduce : AssocCtx → Text → Text
  | start k, y => k.reduce y
  | associatives k x o, y => k.reduce (x ++ o :: y)
  | associative k x o, y => k.reduce (x ++ o :: y)

def TermCtx.reduce : TermCtx → Text → Text
  | start k, y => k.reduce y
  | terms k x o, y => k.reduce (x ++ o :: y)

/-- A `term` before `+` or `-`. After `term associative_op term` the parser reduces; in every other state it shifts. -/
def TermCtx.shiftAssociative : TermCtx → Text → Char → TermCtx
  | start k, y, o => .terms k y o
  | terms k x o₀, y, o => .start (.associative k (x ++ o₀ :: y) o)

/-- An `associative_expr` before `*` or `/`: it becomes the left operand, unless it ends an operand itself. -/
def AssocCtx.shiftCommutative : AssocCtx → Text → Char → AssocCtx
  | start k, y, o => .associatives k y o
  | associatives k x o₀, y, o => .start (.commutative k (x ++ o₀ :: y) o)
  | associative k x o₀, y, o => k.shiftCommutative (x ++ o₀ :: y) o

def TermCtx.shiftCommutative : TermCtx → Text → Char → TermCtx
  | start k, y, o => .start (k.shiftCommutative y o)
  | terms k x o₀, y, o => .start (k.shiftCommutative (x ++ o₀ :: y) o)

/-! ## The parser -/

def termText : Token → Option Text
  | .var s => some s
  | .integer s => some s
  | .real s => some s
  | _ => none

/-- The expression up to the `,` or `;` behind it. `ks` are the stacks outside the open parentheses, `k` the stack
inside them and, after a term, its text. -/
def commExpr : List TermCtx → TermCtx → Option Text → List Token → Option (Text × List Token)
  | _, _, _, [] => none
  | ks, k, none, t :: ts =>
    match termText t with
    | some x => commExpr ks k (some x) ts
    | none => if t = .char '(' then commExpr (k :: ks) .empty none ts else none
  | ks, k, some y, .char c :: ts =>
    if associativeOp c then commExpr ks (k.shiftAssociative y c) none ts
    else if commutativeOp c then commExpr ks (k.shiftCommutative y c) none ts
    else if c = ')' then
      match ks with
      | k' :: ks => commExpr ks k' (some ('(' :: k.reduce y ++ [')'])) ts
      | [] => none
    else if (c = ',' ∨ c = ';') ∧ ks = [] then some (k.reduce y, .char c :: ts)
    else none
  | _, _, some _, _ :: _ => none

/-! ## Every derivable expression is accepted -/

def CommCtx.flat : CommCtx → Text
  | start => []
  | commutative k x o => k.flat ++ x ++ [o]

def AssocCtx.flat : AssocCtx → Text
  | start k => k.flat
  | associatives k x o => k.flat ++ x ++ [o]
  | associative k x o => k.flat ++ x ++ [o]

def TermCtx.flat : TermCtx → Text
  | start k => k.flat
  | terms k x o => k.flat ++ x ++ [o]

theorem CommCtx.reduce_eq (k : CommCtx) (y : Text) : k.reduce y = k.flat ++ y := by
  induction k generalizing y with
  | start => rfl
  | commutative k x o ih => simp [reduce, flat, ih]

theorem AssocCtx.reduce_eq (k : AssocCtx) (y : Text) : k.reduce y = k.flat ++ y := by
  induction k generalizing y with
  | start k => exact k.reduce_eq y
  | associatives k x o => simp [reduce, flat, CommCtx.reduce_eq]
  | associative k x o ih => simp [reduce, flat, ih]

theorem TermCtx.reduce_eq (k : TermCtx) (y : Text) : k.reduce y = k.flat ++ y := by
  cases k <;> simp [reduce, flat, AssocCtx.reduce_eq]

theorem TermCtx.shiftAssociative_flat (k : TermCtx) (y : Text) (o : Char) :
    (k.shiftAssociative y o).flat = k.flat ++ y ++ [o] := by
  cases k <;> simp [shiftAssociative, flat, AssocCtx.flat]

theorem AssocCtx.shiftCommutative_flat (k : AssocCtx) (y : Text) (o : Char) :
    (k.shiftCommutative y o).flat = k.flat ++ y ++ [o] := by
  induction k generalizing y with
  | start k => rfl
  | associatives k x o₀ => simp [shiftCommutative, flat, CommCtx.flat]
  | associative k x o₀ ih => simp [shiftCommutative, flat, ih]

theorem TermCtx.shiftCommutative_flat (k : TermCtx) (y : Text) (o : Char) :
    (k.shiftCommutative y o).flat = k.flat ++ y ++ [o] := by
  cases k <;> simp [shiftCommutative, flat, AssocCtx.shiftCommutative_flat]

theorem commExpr_term {t : Token} {x : Text} (h : termText t = some x) (ks : List TermCtx) (k : TermCtx)
    (ts : List Token) : commExpr ks k none (t :: ts) = commExpr ks k (some x) ts := by
  simp only [commExpr, h]

theorem commExpr_open (ks : List TermCtx) (k : TermCtx) (ts : List Token) :
    commExpr ks k none (.char '(' :: ts) = commExpr (k :: ks) .empty none ts := rfl

theorem commExpr_close (ks : List TermCtx) (k k' : TermCtx) (y : Text) (ts : List Token) :
    commExpr (k' :: ks) k (some y) (.char ')' :: ts) = commExpr ks k' (some ('(' :: (k.flat ++ y) ++ [')'])) ts := by
  rw [← TermCtx.reduce_eq]
  rfl

theorem commutativeOp_not_associative {o : Char} (h : commutativeOp o = true) : associativeOp o = false := by
  unfold commutativeOp at h
  rw [Bool.or_eq_true, beq_iff_eq, beq_iff_eq] at h
  rcases h with rfl | rfl <;> rfl

/-- After a term, an operator is shifted. -/
theorem commExpr_op {o : Char} (h : associativeOp o = true ∨ commutativeOp o = true) (ks : List TermCtx) (k : TermCtx)
    (y : Text) (ts : List Token) : ∃ k' : TermCtx, k'.flat = k.flat ++ y ++ [o] ∧
      commExpr ks k (some y) (.char o :: ts) = commExpr ks k' none ts := by
  rcases h with h | h
  · exact ⟨_, k.shiftAssociative_flat y o, by simp only [commExpr, h, if_true]⟩
  · refine ⟨_, k.shiftCommutative_flat y o, ?_⟩
    simp only [commExpr, commutativeOp_not_associative h, h, if_true, Bool.false_eq_true, if_false]

/-- The parser reads a derivable list and keeps its text on the stack. -/
theorem Derives.read {s : Sym} {ts : List Token} {x : Text} (h : Derives s ts x) (ks : List TermCtx) (k : TermCtx)
    (rest : List Token) : ∃ (k' : TermCtx) (x' : Text), k'.flat ++ x' = k.flat ++ x ∧
      commExpr ks k none (ts ++ rest) = commExpr ks k' (some x') rest := by
  have binary : ∀ {ts us : List Token} {x y : Text} {o : Char}, associativeOp o = true ∨ commutativeOp o = true →
      (∀ (ks : List TermCtx) (k : TermCtx) (rest : List Token), ∃ (k' : TermCtx) (x' : Text),
        k'.flat ++ x' = k.flat ++ x ∧ commExpr ks k none (ts ++ rest) = commExpr ks k' (some x') rest) →
      (∀ (ks : List TermCtx) (k : TermCtx) (rest : List Token), ∃ (k' : TermCtx) (x' : Text),
        k'.flat ++ x' = k.flat ++ y ∧ commExpr ks k none (us ++ rest) = commExpr ks k' (some x') rest) →
      ∀ (ks : List TermCtx) (k : TermCtx) (rest : List Token), ∃ (k' : TermCtx) (x' : Text),
        k'.flat ++ x' = k.flat ++ (x ++ o :: y) ∧
          commExpr ks k none (ts ++ .char o :: us ++ rest) = commExpr ks k' (some x') rest := by
    intro ts us x y o ho hl hr ks k rest
    obtain ⟨k₁, x₁, hflat₁, h₁⟩ := hl ks k (.char o :: (us ++ rest))
    obtain ⟨k₂, hflat₂, h₂⟩ := commExpr_op ho ks k₁ x₁ (us ++ rest)
    obtain ⟨k₃, x₃, hflat₃, h₃⟩ := hr ks k₂ rest
    refine ⟨k₃, x₃, ?_, ?_⟩
    · rw [hflat₃, hflat₂, hflat₁]
      simp
    · rw [List.append_assoc, List.cons_append, h₁, h₂, h₃]
  induction h generalizing ks k rest with
  | var s => exact ⟨k, s, rfl, commExpr_term rfl ks k rest⟩
  | integer s => exact ⟨k, s, rfl, commExpr_term rfl ks k rest⟩
  | real s => exact ⟨k, s, rfl, commExpr_term rfl ks k rest⟩
  | @paren ts x _ ih =>
    obtain ⟨k', x', hflat, h⟩ := ih (k :: ks) .empty (.char ')' :: rest)
    refine ⟨k, '(' :: x ++ [')'], rfl, ?_⟩
    have hlist : .char '(' :: ts ++ [.char ')'] ++ rest = .char '(' :: (ts ++ .char ')' :: rest) := by simp
    rw [hlist, commExpr_open, h, commExpr_close, hflat]
    rfl
  | terms _ ho _ ihl ihr => exact binary (Or.inl ho) ihl ihr ks k rest
  | associative _ ho _ ihl ihr => exact binary (Or.inl ho) ihl ihr ks k rest
  | ofTerm _ ih => exact ih ks k rest
  | ofAssociative _ ih => exact ih ks k rest
  | associatives _ ho _ ihl ihr => exact binary (Or.inr ho) ihl ihr ks k rest
  | commutative _ ho _ ihl ihr => exact binary (Or.inr ho) ihl ihr ks k rest

/-! ## Every accepted expression is derivable -/

inductive CommCtx.Built : CommCtx → List Token → Prop
  | start : Built .start []
  | commutative {k : CommCtx} {us ts : List Token} {x : Text} {o : Char} : Built k us → Derives .commutativeExpr ts x →
      commutativeOp o = true → Built (.commutative k x o) (us ++ ts ++ [.char o])

inductive AssocCtx.Built : AssocCtx → List Token → Prop
  | start {k : CommCtx} {us : List Token} : k.Built us → Built (.start k) us
  | associatives {k : CommCtx} {us ts : List Token} {x : Text} {o : Char} : k.Built us →
      Derives .associativeExpr ts x → commutativeOp o = true → Built (.associatives k x o) (us ++ ts ++ [.char o])
  | associative {k : AssocCtx} {us ts : List Token} {x : Text} {o : Char} : Built k us →
      Derives .associativeExpr ts x → associativeOp o = true → Built (.associative k x o) (us ++ ts ++ [.char o])

/-- The tokens that a stack has read. -/
inductive TermCtx.Built : TermCtx → List Token → Prop
  | start {k : AssocCtx} {us : List Token} : k.Built us → Built (.start k) us
  | terms {k : AssocCtx} {us ts : List Token} {x : Text} {o : Char} : k.Built us → Derives .term ts x →
      associativeOp o = true → Built (.terms k x o) (us ++ ts ++ [.char o])

section Built
variable {us ts : List Token} {y : Text} {o : Char}

theorem regroup {us ts vs : List Token} {t : Token} : us ++ (ts ++ t :: vs) = us ++ ts ++ [t] ++ vs := by simp

theorem CommCtx.Built.reduce {k : CommCtx} (h : k.Built us) (hy : Derives .commutativeExpr ts y) :
    Derives .commutativeExpr (us ++ ts) (k.reduce y) := by
  induction h generalizing ts y with
  | start => exact hy
  | commutative _ hx ho ih =>
    have := ih (hx.commutative ho hy)
    rwa [regroup] at this

theorem AssocCtx.Built.reduce {k : AssocCtx} (h : k.Built us) (hy : Derives .associativeExpr ts y) :
    Derives .commutativeExpr (us ++ ts) (k.reduce y) := by
  induction h generalizing ts y with
  | start hk => exact hk.reduce hy.ofAssociative
  | associatives hk hx ho =>
    have := hk.reduce (hx.associatives ho hy)
    rwa [regroup] at this
  | associative _ hx ho ih =>
    have := ih (hx.associative ho hy)
    rwa [regroup] at this

theorem TermCtx.Built.reduce {k : TermCtx} (h : k.Built us) (hy : Derives .term ts y) :
    Derives .commutativeExpr (us ++ ts) (k.reduce y) := by
  cases h with
  | start hk => exact hk.reduce hy.ofTerm
  | terms hk hx ho =>
    have := hk.reduce (hx.terms ho hy)
    rwa [regroup] at this

theorem TermCtx.Built.shiftAssociative {k : TermCtx} (h : k.Built us) (hy : Derives .term ts y)
    (ho : associativeOp o = true) : (k.shiftAssociative y o).Built (us ++ ts ++ [.char o]) := by
  cases h with
  | start hk => exact .terms hk hy ho
  | terms hk hx ho' =>
    have := TermCtx.Built.start (.associative hk (hx.terms ho' hy) ho)
    rwa [regroup] at this

theorem AssocCtx.Built.shiftCommutative {k : AssocCtx} (h : k.Built us) (hy : Derives .associativeExpr ts y)
    (ho : commutativeOp o = true) : (k.shiftCommutative y o).Built (us ++ ts ++ [.char o]) := by
  induction h generalizing ts y with
  | start hk => exact .associatives hk hy ho
  | associatives hk hx ho' =>
    have := AssocCtx.Built.start (.commutative hk (hx.associatives ho' hy) ho)
    rwa [regroup] at this
  | associative _ hx ho' ih =>
    have := ih (hx.associative ho' hy)
    rwa [regroup] at this

theorem TermCtx.Built.shiftCommutative {k : TermCtx} (h : k.Built us) (hy : Derives .term ts y)
    (ho : commutativeOp o = true) : (k.shiftCommutative y o).Built (us ++ ts ++ [.char o]) := by
  cases h with
  | start hk => exact .start (hk.shiftCommutative hy.ofTerm ho)
  | terms hk hx ho' =>
    have := TermCtx.Built.start (hk.shiftCommutative (hx.terms ho' hy) ho)
    rwa [regroup] at this

theorem TermCtx.Built.empty : TermCtx.empty.Built [] := .start (.start .start)

end Built

/-- The tokens that the stacks outside the open parentheses have read. -/
inductive StacksBuilt : List TermCtx → List Token → Prop
  | nil : StacksBuilt [] []
  | cons {k : TermCtx} {ks : List TermCtx} {us vs : List Token} : StacksBuilt ks us → k.Built vs →
      StacksBuilt (k :: ks) (us ++ vs ++ [.char '('])

theorem derives_term {t : Token} {x : Text} (h : termText t = some x) : Derives .term [t] x := by
  cases t <;> cases h
  · exact .var x
  · exact .integer x
  · exact .real x

/-- What the parser accepts from a reachable stack on: with what it has read, an expression, up to `,` or `;`. -/
theorem commExpr_sound {ks : List TermCtx} {k : TermCtx} {o : Option Text} {us vs ws ts rest : List Token} {x : Text}
    (hks : StacksBuilt ks us) (hk : k.Built vs) (ho : ∀ y ∈ o, Derives .term ws y) (hn : o = none → ws = [])
    (h : commExpr ks k o ts = some (x, rest)) :
    ∃ ts₁, ts = ts₁ ++ rest ∧ Derives .commutativeExpr (us ++ vs ++ ws ++ ts₁) x ∧
      ∃ c, (c = ',' ∨ c = ';') ∧ rest.head? = some (.char c) := by
  induction ts generalizing ks k o us vs ws with
  | nil => cases o <;> cases h
  | cons t ts ih =>
    cases o with
    | none =>
      have hws := hn rfl
      subst hws
      simp only [commExpr] at h
      split at h
      · rename_i y ht
        obtain ⟨ts₁, rfl, hd, hc⟩ :=
          ih (o := some y) hks hk (fun z hz => by cases hz; exact derives_term ht) (by simp) h
        exact ⟨t :: ts₁, rfl, by simpa using hd, hc⟩
      · split_ifs at h with ht
        subst ht
        obtain ⟨ts₁, rfl, hd, hc⟩ := ih (hks.cons hk) .empty (by simp) (fun _ => rfl) h
        exact ⟨.char '(' :: ts₁, rfl, by simpa using hd, hc⟩
    | some y =>
      have hy := ho y rfl
      cases t with
      | char c =>
        simp only [commExpr] at h
        split_ifs at h with h1 h2 h3 h4
        · obtain ⟨ts₁, rfl, hd, hc⟩ := ih hks (hk.shiftAssociative hy h1) (by simp) (fun _ => rfl) h
          exact ⟨.char c :: ts₁, rfl, by simpa using hd, hc⟩
        · obtain ⟨ts₁, rfl, hd, hc⟩ := ih hks (hk.shiftCommutative hy h2) (by simp) (fun _ => rfl) h
          exact ⟨.char c :: ts₁, rfl, by simpa using hd, hc⟩
        · subst h3
          cases hks with
          | nil => cases h
          | cons hks hk' =>
            have hparen : ∀ z ∈ some ('(' :: k.reduce y ++ [')']), Derives .term _ z := fun z hz => by
              cases hz
              exact (hk.reduce hy).paren
            obtain ⟨ts₁, rfl, hd, hc⟩ := ih hks hk' hparen (by simp) h
            exact ⟨.char ')' :: ts₁, rfl, by simpa using hd, hc⟩
        · obtain ⟨hc, rfl⟩ := h4
          cases hks
          cases h
          exact ⟨[], rfl, by simpa using hk.reduce hy, c, hc, rfl⟩
      | _ => cases h

/-- **The parser accepts exactly the derivable token lists before a `,` or a `;`, with the derived text.** -/
theorem commExpr_iff {ts rest : List Token} {x : Text} :
    commExpr [] .empty none ts = some (x, rest) ↔
      ∃ ts₁, ts = ts₁ ++ rest ∧ Derives .commutativeExpr ts₁ x ∧
        ∃ c, (c = ',' ∨ c = ';') ∧ rest.head? = some (.char c) := by
  constructor
  · intro h
    exact commExpr_sound .nil .empty (by simp) (fun _ => rfl) h
  · rintro ⟨ts₁, rfl, hd, c, hc, hrest⟩
    obtain ⟨k, y, hflat, hread⟩ := hd.read [] .empty rest
    cases rest with
    | nil => cases hrest
    | cons t rest =>
      cases hrest
      have hop : associativeOp c = false ∧ commutativeOp c = false ∧ c ≠ ')' := by
        rcases hc with rfl | rfl <;> decide
      rw [hread]
      simp only [commExpr, hop.1, hop.2.1, hop.2.2, hc, Bool.false_eq_true, if_false, and_true, if_true,
        TermCtx.reduce_eq, hflat]
      rfl

end Hmon.Config
