import Hmon.Lib.WaitFor
import Mathlib.Order.Basic
import Mathlib.Data.Nat.Basic

/-!
# Graphs built from below

A graph whose nodes are added one at a time, each with edges to earlier nodes only.

* `total f` : the sum of `f` over a list;
* `Layered children nodes` : every node's children come later in the list, the newest node being first;
* `Layered.cost` : such a graph has a cost in which a node pays for all its children;
* `Layered.acyclic` : it has no cycle.
-/

namespace Hmon.Lib

variable {α : Type}

/-! ## Sums over lists -/

def total (f : α → Nat) : List α → Nat
  | [] => 0
  | x :: xs => f x + total f xs

@[simp] theorem total_nil (f : α → Nat) : total f [] = 0 := rfl

@[simp] theorem total_cons (f : α → Nat) (x : α) (xs : List α) : total f (x :: xs) = f x + total f xs := rfl

@[simp] theorem total_append (f : α → Nat) (xs ys : List α) : total f (xs ++ ys) = total f xs + total f ys := by
  induction xs with
  | nil => exact (Nat.zero_add _).symm
  | cons x xs ih => rw [List.cons_append, total_cons, total_cons, ih, Nat.add_assoc]

theorem total_map {β : Type} (f : β → Nat) (g : α → β) (xs : List α) :
    total f (xs.map g) = total (fun x => f (g x)) xs := by
  induction xs with
  | nil => rfl
  | cons x xs ih => rw [List.map_cons, total_cons, total_cons, ih]

theorem total_replicate (f : α → Nat) (n : Nat) (x : α) : total f (List.replicate n x) = n * f x := by
  induction n with
  | zero => exact (Nat.zero_mul _).symm
  | succ n ih => rw [List.replicate_succ, total_cons, ih, Nat.succ_mul, Nat.add_comm]

theorem total_congr {f g : α → Nat} {xs : List α} (h : ∀ x ∈ xs, f x = g x) : total f xs = total g xs := by
  induction xs with
  | nil => rfl
  | cons x xs ih =>
    rw [total_cons, total_cons, h x List.mem_cons_self, ih fun y hy => h y (List.mem_cons_of_mem x hy)]

theorem total_le {f g : α → Nat} {xs : List α} (h : ∀ x ∈ xs, f x ≤ g x) : total f xs ≤ total g xs := by
  induction xs with
  | nil => exact Nat.le_refl 0
  | cons x xs ih =>
    exact Nat.add_le_add (h x List.mem_cons_self) (ih fun y hy => h y (List.mem_cons_of_mem x hy))

/-- A sum gets smaller when one of its members does and no other grows. -/
theorem total_lt {f g : α → Nat} {xs : List α} {x : α} (hx : x ∈ xs) (hlt : f x < g x)
    (h : ∀ y ∈ xs, f y ≤ g y) : total f xs < total g xs := by
  induction xs with
  | nil => exact absurd hx List.not_mem_nil
  | cons y ys ih =>
    have hys : ∀ z ∈ ys, f z ≤ g z := fun z hz => h z (List.mem_cons_of_mem y hz)
    rcases List.mem_cons.mp hx with rfl | hx
    · exact Nat.add_lt_add_of_lt_of_le hlt (total_le hys)
    · exact Nat.add_lt_add_of_le_of_lt (h y List.mem_cons_self) (ih hx hys)

theorem le_total {f : α → Nat} {xs : List α} {x : α} (hx : x ∈ xs) : f x ≤ total f xs := by
  induction xs with
  | nil => exact absurd hx List.not_mem_nil
  | cons y ys ih =>
    rcases List.mem_cons.mp hx with rfl | hx
    · exact Nat.le_add_right _ _
    · exact Nat.le_trans (ih hx) (Nat.le_add_left _ _)

/-! ## Layers -/

/-- Each node is new and its children are among the nodes after it. -/
def Layered (children : α → List α) : List α → Prop
  | [] => True
  | p :: ps => p ∉ ps ∧ (∀ c ∈ children p, c ∈ ps) ∧ Layered children ps

/-- The edges of a graph on `nodes`. -/
def Edge (children : α → List α) (nodes : List α) (p c : α) : Prop := p ∈ nodes ∧ c ∈ children p

variable {children children' : α → List α} {nodes : List α}

theorem Layered.congr (h : Layered children nodes) (he : ∀ p ∈ nodes, children' p = children p) :
    Layered children' nodes := by
  induction nodes with
  | nil => trivial
  | cons p ps ih =>
    obtain ⟨hp, hc, hps⟩ := h
    refine ⟨hp, ?_, ih hps fun q hq => he q (List.mem_cons_of_mem p hq)⟩
    rw [he p List.mem_cons_self]
    exact hc

/-- The children of a node are nodes. -/
theorem Layered.children_mem (h : Layered children nodes) {p c : α} (hp : p ∈ nodes) (hc : c ∈ children p) :
    c ∈ nodes := by
  induction nodes with
  | nil => exact absurd hp List.not_mem_nil
  | cons q qs ih =>
    obtain ⟨-, hq, hqs⟩ := h
    rcases List.mem_cons.mp hp with rfl | hp
    · exact List.mem_cons_of_mem p (hq c hc)
    · exact List.mem_cons_of_mem q (ih hqs hp)

/-- **A layered graph has a cost that pays, for each node, the cost of its children and `a` for each of them,
and `b` besides.** -/
theorem Layered.cost (h : Layered children nodes) (a b : Nat) :
    ∃ cost : α → Nat, ∀ p ∈ nodes, total (fun c => cost c + a) (children p) + b ≤ cost p := by
  classical
  induction nodes with
  | nil => exact ⟨fun _ => 0, fun _ hp => absurd hp List.not_mem_nil⟩
  | cons p ps ih =>
    obtain ⟨hp, hc, hps⟩ := h
    obtain ⟨cost, hcost⟩ := ih hps
    -- the new node gets what its children cost; no older node has it as a child
    let cost' : α → Nat := fun x => if x = p then total (fun c => cost c + a) (children p) + b else cost x
    have hold : ∀ x ∈ ps, cost' x = cost x := fun x hx =>
      if_neg fun he : x = p => hp (he ▸ hx)
    have hsum : ∀ q, (∀ c ∈ children q, c ∈ ps) →
        total (fun c => cost' c + a) (children q) = total (fun c => cost c + a) (children q) := fun q hq =>
      total_congr fun c hcq => by rw [hold c (hq c hcq)]
    refine ⟨cost', fun q hq => ?_⟩
    rcases List.mem_cons.mp hq with rfl | hq
    · rw [hsum q hc]
      exact (if_pos rfl).symm.le
    · rw [hsum q fun c hcq => hps.children_mem hq hcq, hold q hq]
      exact hcost q hq

/-- **A layered graph has no cycle.** -/
theorem Layered.acyclic (h : Layered children nodes) : Acyclic (Edge children nodes) := by
  obtain ⟨cost, hcost⟩ := h.cost 0 1
  have hedge : ∀ p c, Edge children nodes p c → cost c < cost p := by
    intro p c hpc
    have := le_total (f := fun c => cost c + 0) hpc.2
    exact Nat.lt_of_lt_of_le (Nat.lt_succ_of_le this) (hcost p hpc.1)
  have hpath : ∀ p c, Relation.TransGen (Edge children nodes) p c → cost c < cost p := by
    intro p c hpc
    induction hpc with
    | single hpc => exact hedge _ _ hpc
    | tail _ hcd ih => exact Nat.lt_trans (hedge _ _ hcd) ih
  exact fun p hp => Nat.lt_irrefl _ (hpath p p hp)

end Hmon.Lib
