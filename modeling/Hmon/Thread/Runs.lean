import Hmon.Monitor.Window
import Hmon.Thread.Chain

/-!
# Calls of one thread while no other runs

* `Runs` : a thread performs a list of operations, with what they leave to do, and what it logs;
* `Op.within`, `Inner` : the operations on a set of monitors closed under children, and those of a read of a monitor
  over such a set; `inner_frame` : they touch nothing else; `inner_transfer` : nothing else matters to them;
* `exists_runs` : **a thread that is alone on the set performs them all**;
* `Runs.steps` : a run is a sequence of steps of the world.
-/

namespace Hmon
open Lib

variable {V M : Type}

/-- What the plugin of a monitor and the clock answer, by the monitor and its total. -/
abbrev Replies (V M : Type) := M → Nat → Answer V

section Runs
variable [Double V] [DecidableEq M]

/-- The thread `t` performs the operations and all that they leave to do. -/
inductive Runs (t : Thread) (answer : Replies V M) :
    List (Op M) → (M → Hmonitor Thread V M) → List (M × Event) → (M → Hmonitor Thread V M) → Prop
  | nil (mon : M → Hmonitor Thread V M) : Runs t answer [] mon [] mon
  | cons {op : Op M} {ops : List (Op M)} {mon mon' : M → Hmonitor Thread V M} {e : Effect V M}
      {log : List (M × Event)} : op.effect t (answer op.target (mon op.target).total) mon = some e →
      Runs t answer (e.ops ++ ops) (Function.update mon op.target e.mon) log mon' →
      Runs t answer (op :: ops) mon (e.events.map (fun ev => (op.target, ev)) ++ log) mon'

variable {t : Thread} {answer : Replies V M} {ops as bs : List (Op M)} {s s' r : M → Hmonitor Thread V M}
  {l : List (M × Event)}

theorem Runs.append {l' : List (M × Event)} {s₁ : M → Hmonitor Thread V M} (h : Runs t answer as s l s₁)
    (h' : Runs t answer bs s₁ l' s') : Runs t answer (as ++ bs) s (l ++ l') s' := by
  induction h with
  | nil => exact h'
  | cons he _ ih =>
    have hrest := ih h'
    rw [List.append_assoc] at hrest ⊢
    exact .cons he hrest

theorem Runs.split (h : Runs t answer (as ++ bs) s l s') :
    ∃ s₁ l₁ l₂, l = l₁ ++ l₂ ∧ Runs t answer as s l₁ s₁ ∧ Runs t answer bs s₁ l₂ s' := by
  generalize hops : as ++ bs = ops at h
  induction h generalizing as with
  | nil mon =>
    obtain ⟨rfl, rfl⟩ := List.append_eq_nil_iff.mp hops
    exact ⟨mon, [], [], rfl, .nil mon, .nil mon⟩
  | @cons op ops mon mon' e log he hrest ih =>
    cases as with
    | nil =>
      rw [List.nil_append] at hops
      exact ⟨mon, [], _, rfl, .nil mon, hops ▸ .cons he hrest⟩
    | cons a as =>
      obtain ⟨rfl, rfl⟩ := List.cons.inj hops
      obtain ⟨s₁, l₁, l₂, rfl, h₁, h₂⟩ := ih (List.append_assoc e.ops as bs)
      exact ⟨s₁, _, l₂, (List.append_assoc _ _ _).symm, .cons he h₁, h₂⟩

theorem Runs.step {op : Op M} {mon : Hmonitor Thread V M} {evs : List Event} {a : Answer V}
    (he : op.effect t a s = some ⟨mon, evs, as⟩) (ha : answer op.target (s op.target).total = a)
    (hrest : Runs t answer (as ++ ops) (Function.update s op.target mon) l s') :
    Runs t answer (op :: ops) s (evs.map (fun ev => (op.target, ev)) ++ l) s' := by
  subst ha
  exact .cons he hrest

/-- The first operation of a run, whose effect is known. -/
theorem Runs.uncons {op : Op M} {mon : Hmonitor Thread V M} {evs : List Event} (h : Runs t answer (op :: ops) s l s')
    (he : op.effect t (answer op.target (s op.target).total) s = some ⟨mon, evs, as⟩) :
    ∃ l', l = evs.map (fun ev => (op.target, ev)) ++ l' ∧
      Runs t answer (as ++ ops) (Function.update s op.target mon) l' s' := by
  cases h with
  | cons he' hrest =>
    obtain rfl := Option.some.inj (he.symm.trans he')
    exact ⟨_, rfl, hrest⟩

theorem Runs.det {l' : List (M × Event)} {s'' : M → Hmonitor Thread V M} (h : Runs t answer ops s l s')
    (h' : Runs t answer ops s l' s'') : l' = l ∧ s'' = s' := by
  induction h generalizing l' s'' with
  | nil =>
    cases h'
    exact ⟨rfl, rfl⟩
  | cons he _ ih =>
    cases h' with
    | cons he' hrest =>
      obtain rfl := Option.some.inj (he.symm.trans he')
      obtain ⟨rfl, rfl⟩ := ih hrest
      exact ⟨rfl, rfl⟩

/-- A run leaves the objects and children of all monitors alone. -/
theorem Runs.shape (h : Runs t answer ops s l s') (x : M) : SameShape (s x) (s' x) := by
  induction h with
  | nil => exact ⟨rfl, rfl⟩
  | @cons op ops s s' e l he _ ih =>
    by_cases hx : x = op.target
    · subst hx
      rw [Function.update_self] at ih
      have hs := Op.effect_shape he
      exact ⟨ih.location.trans hs.location, ih.eventset.trans hs.eventset⟩
    · rw [Function.update_of_ne hx] at ih
      exact ih

/-- A run is a sequence of steps of the thread. -/
theorem Runs.steps (h : Runs t answer ops s l s') {w : World V M} {rest : List (Op M)} (hs : w.mon = s)
    (hw : w.todo t = ops ++ rest) : ∃ (ls : List (Thread × Answer V)) (w' : World V M), (∀ p ∈ ls, p.1 = t) ∧
      roundSys.exec w ls = some w' ∧ w'.todo t = rest ∧ w'.mon = s' ∧ w'.round = w.round ++ l := by
  induction h generalizing w with
  | nil => exact ⟨[], w, fun p hp => absurd hp List.not_mem_nil, rfl, hw, hs, (List.append_nil _).symm⟩
  | @cons op ops mon mon' e log he _ ih =>
    subst hs
    have hstep : w.step (answer op.target (w.mon op.target).total) t = some (w.commit t op.target e (ops ++ rest)) := by
      unfold World.step
      rw [hw, List.cons_append]
      show (op.effect t _ w.mon).map _ = _
      rw [he]
      rfl
    obtain ⟨ls, w', ht, hexec, htodo, hmon, hround⟩ := ih (w := w.commit t op.target e (ops ++ rest)) rfl
      (by rw [World.commit_todo_self, List.append_assoc])
    refine ⟨(t, _) :: ls, w', fun p hp => ?_, Lts.exec_cons_eq_some.mpr ⟨_, hstep, hexec⟩, htodo, hmon, ?_⟩
    · rcases List.mem_cons.mp hp with rfl | hp
      · rfl
      · exact ht p hp
    · rw [hround, World.commit_round, List.append_assoc]

end Runs

/-! ## The operations on a set of monitors -/

/-- The monitors that an operation names are in `D`. -/
def Op.within (D : M → Prop) : Op M → Prop
  | .copySamples m _ c | .copyEvents m _ c | .addEvents m _ c => D m ∧ D c
  | op => D op.target

theorem Op.within.target {D : M → Prop} {op : Op M} (h : op.within D) : D op.target := by
  cases op with
  | copySamples | copyEvents | addEvents => exact h.1
  | start | stop | read | reduce | reset | lockChild | blocked | unlock | release | readDone => exact h

/-- The children of the monitors in `D` are in `D`. -/
def Closed (D : M → Prop) (mon : M → Hmonitor Thread V M) : Prop :=
  ∀ x, D x → ∀ c ∈ (mon x).eventset.childEvents, D c

/-- The operations of a read of `c` over the monitors in `D`. -/
inductive Inner (D : M → Prop) (c : M) : Op M → Prop
  | below {op : Op M} : op.within D → Inner D c op
  | copySamples (base : Nat) {d : M} : D d → Inner D c (.copySamples c base d)
  | copyEvents (base : Nat) {d : M} : D d → Inner D c (.copyEvents c base d)
  | addEvents (base : Nat) {d : M} : D d → Inner D c (.addEvents c base d)
  | readDone : Inner D c (.readDone c)

section Within
variable {D : M → Prop} {c : M} {mon mon' : M → Hmonitor Thread V M}

theorem hierarchicalRead_inner {m : M} {base : Nat} {cs : List M} (h : ∀ d ∈ cs, D d) :
    ∀ op ∈ hierarchicalRead mon m base cs, Inner D m op := by
  induction cs generalizing base with
  | nil => exact fun op hop => absurd hop List.not_mem_nil
  | cons d ds ih =>
    have hd := h d List.mem_cons_self
    rw [hierarchicalRead, List.forall_mem_cons, List.forall_mem_cons]
    exact ⟨.below hd, .copySamples base hd, ih fun x hx => h x (List.mem_cons_of_mem d hx)⟩

theorem accumulateRead_inner {m : M} {base : Nat} {cs : List M} {ops : List (Op M)} (h : ∀ d ∈ cs, D d)
    (hops : accumulateRead m base cs = some ops) : ∀ op ∈ ops, Inner D m op := by
  cases cs with
  | nil => cases hops
  | cons d ds =>
    cases hops
    have hd := h d List.mem_cons_self
    rw [List.forall_mem_cons, List.forall_mem_cons, List.forall_mem_cons]
    refine ⟨.below hd, .below hd, .copyEvents base hd, fun op hop => ?_⟩
    obtain ⟨x, hx, hop⟩ := List.mem_flatMap.mp hop
    have hx := h x (List.mem_cons_of_mem d hx)
    rw [List.mem_cons, List.mem_singleton] at hop
    rcases hop with rfl | rfl
    · exact .below hx
    · exact .addEvents base hx

theorem hierarchicalRead_congr {m : M} {base : Nat} {cs : List M} (h : ∀ d ∈ cs, mon' d = mon d) :
    hierarchicalRead mon' m base cs = hierarchicalRead mon m base cs := by
  induction cs generalizing base with
  | nil => rfl
  | cons d ds ih =>
    rw [hierarchicalRead, hierarchicalRead, h d List.mem_cons_self, ih fun x hx => h x (List.mem_cons_of_mem d hx)]

theorem Inner.within (hc : D c) {op : Op M} (h : Inner D c op) : op.within D := by
  cases h with
  | below h => exact h
  | copySamples base hd | copyEvents base hd | addEvents base hd => exact ⟨hc, hd⟩
  | readDone => exact hc

section Effect
variable [Double V] {self : Thread} {a : Answer V} {op : Op M} {e : Effect V M}

/-- An operation on `D` leaves operations on `D` to do. -/
theorem Op.effect_within (hD : Closed D mon) (hop : op.within D) (h : op.effect self a mon = some e) :
    ∀ o ∈ e.ops, o.within D := by
  cases op with
  | read m =>
    have hm : D m := hop
    have hcs : ∀ d ∈ (mon m).eventset.childEvents, D d := hD m hm
    simp only [effect] at h
    by_cases ho : (mon m).owner = self
    · rw [if_pos ho] at h
      cases hev : (mon m).eventset with
      | leaf =>
        rw [hev] at h
        cases h
        exact fun o ho => absurd ho List.not_mem_nil
      | hierarchical cs =>
        rw [hev] at h hcs
        cases h
        rw [List.forall_mem_append, List.forall_mem_singleton]
        exact ⟨fun o ho => (hierarchicalRead_inner hcs o ho).within hm, hm⟩
      | accumulate cs =>
        rw [hev] at h hcs
        obtain ⟨ops, hops, rfl⟩ := Option.map_eq_some_iff.mp h
        rw [List.forall_mem_append, List.forall_mem_singleton]
        exact ⟨fun o ho => (accumulateRead_inner hcs hops o ho).within hm, hm⟩
    · rw [if_neg ho] at h
      cases h
      exact fun o ho => absurd ho List.not_mem_nil
  | lockChild d =>
    rcases Op.lockChild_cases h with ⟨-, rfl⟩ | ⟨-, -, rfl⟩ | ⟨-, -, rfl⟩
    · simpa [Op.within, Op.target] using hop
    · simpa [Op.within, Op.target] using hop
    · simpa [Op.within, Op.target] using hop
  | blocked d =>
    simp only [effect] at h
    split_ifs at h
    cases h
    simpa [Op.within, Op.target] using hop
  | reset m =>
    cases h
    intro o ho
    obtain ⟨d, hd, rfl⟩ := List.mem_map.mp ho
    exact hD m hop d hd
  | start m | stop m | reduce m | unlock d | release d | readDone m =>
    cases h
    exact fun o ho => absurd ho List.not_mem_nil
  | copySamples m base d | copyEvents m base d | addEvents m base d =>
    cases h
    exact fun o ho => absurd ho List.not_mem_nil

/-- Nothing but `D` matters to an operation on `D`. -/
theorem Op.effect_congr (hD : Closed D mon) (hop : op.within D) (h : ∀ x, D x → mon' x = mon x) :
    op.effect self a mon' = op.effect self a mon := by
  have htarget : mon' op.target = mon op.target := h _ hop.target
  cases op with
  | read m =>
    have hcs : ∀ cs, (mon m).eventset = .hierarchical cs → ∀ d ∈ cs, mon' d = mon d := by
      intro cs hev d hd
      exact h d (hD m hop d (by rw [hev]; exact hd))
    simp only [effect, show mon' m = mon m from htarget]
    cases hev : (mon m).eventset with
    | hierarchical cs => simp only [hierarchicalRead_congr (hcs cs hev)]
    | leaf | accumulate cs => rfl
  | start m | stop m | reduce m | reset m | lockChild d | blocked d | unlock d | release d | readDone m =>
    simp only [Op.target] at htarget
    simp only [effect, htarget]
  | copySamples m base d | copyEvents m base d | addEvents m base d =>
    simp only [Op.target] at htarget
    simp only [effect, htarget, h d hop.2]

end Effect
end Within

/-! ## A read over a set of monitors -/

/-- The same monitors in `D`, and the same `c` but for its mutex. -/
structure Agree (D : M → Prop) (c : M) (s r : M → Hmonitor Thread V M) : Prop where
  below : ∀ x, D x → r x = s x
  self : ∃ x, r c = { s c with mutex := x }

theorem Agree.refl (D : M → Prop) (c : M) (s : M → Hmonitor Thread V M) : Agree D c s s :=
  ⟨fun _ _ => rfl, (s c).mutex, rfl⟩

section Update
variable [DecidableEq M] {D : M → Prop} {c d : M} {s r : M → Hmonitor Thread V M}

/-- They agree when `c` becomes the same monitor but for its mutex, -/
theorem Agree.update (h : Agree D c s r) (hc : ¬ D c) {m m' : Hmonitor Thread V M}
    (hm : ∃ x, m' = { m with mutex := x }) : Agree D c (Function.update s c m) (Function.update r c m') := by
  obtain ⟨x, rfl⟩ := hm
  refine ⟨fun y hy => ?_, x, ?_⟩
  · have hyc : y ≠ c := fun heq => hc (heq ▸ hy)
    rw [Function.update_of_ne hyc, Function.update_of_ne hyc, h.below y hy]
  · rw [Function.update_self, Function.update_self]

/-- and when another monitor becomes the same one. -/
theorem Agree.update_ne (h : Agree D c s r) (hd : c ≠ d) (m : Hmonitor Thread V M) :
    Agree D c (Function.update s d m) (Function.update r d m) := by
  refine ⟨fun y hy => ?_, ?_⟩
  · by_cases hyd : y = d
    · rw [hyd, Function.update_self, Function.update_self]
    · rw [Function.update_of_ne hyd, Function.update_of_ne hyd, h.below y hy]
  · rw [Function.update_of_ne hd, Function.update_of_ne hd]
    exact h.self

end Update

section Inner
variable [Double V] {D : M → Prop} {c : M} {s s' r : M → Hmonitor Thread V M} {t : Thread} {answer : Replies V M}
  {ops : List (Op M)} {l : List (M × Event)}

/-- An operation of a read of `c` is one on `D`, or writes cells of `c` that depend on `D` and on the cells of `c`. -/
theorem Inner.effect_cases {op : Op M} (h : Inner D c op) (s : M → Hmonitor Thread V M) : op.within D ∨ op.target = c ∧
    (∀ cost : M → Nat, op.weight cost = 1) ∧ ∃ events evs, events.length = (s c).events.length ∧
      (∀ ev ∈ evs, ev = Event.read) ∧ ∀ (self : Thread) (a : Answer V) r, Agree D c s r →
        op.effect self a r = some ⟨{ r c with events := events }, evs, []⟩ := by
  cases h with
  | below h => exact .inl h
  | @copySamples base d hd =>
    refine .inr ⟨rfl, fun _ => rfl, writeCells (s c).events base ((s d).samples.take (s d).nSamples), [],
      length_writeCells _ _ _, fun ev hev => absurd hev List.not_mem_nil, fun self a r hr => ?_⟩
    obtain ⟨x, hx⟩ := hr.self
    simp only [Op.effect, hr.below d hd, hx]
  | @copyEvents base d hd =>
    refine .inr ⟨rfl, fun _ => rfl, writeCells (s c).events base (lastRow (s d)), [],
      length_writeCells _ _ _, fun ev hev => absurd hev List.not_mem_nil, fun self a r hr => ?_⟩
    obtain ⟨x, hx⟩ := hr.self
    simp only [Op.effect, hr.below d hd, hx]
  | @addEvents base d hd =>
    refine .inr ⟨rfl, fun _ => rfl,
      writeCells (s c).events base (List.zipWith (· + ·) ((s c).events.drop base) (lastRow (s d))), [],
      length_writeCells _ _ _, fun ev hev => absurd hev List.not_mem_nil, fun self a r hr => ?_⟩
    obtain ⟨x, hx⟩ := hr.self
    simp only [Op.effect, hr.below d hd, hx]
  | readDone =>
    refine .inr ⟨rfl, fun _ => rfl, (s c).events, [.read], rfl, by simp, fun self a r hr => ?_⟩
    obtain ⟨x, hx⟩ := hr.self
    simp only [Op.effect, hx]

variable [DecidableEq M]

omit [Double V] in
theorem Closed.update {m : M} {h : Hmonitor Thread V M} (hD : Closed D s) (hs : SameShape (s m) h) :
    Closed D (Function.update s m h) := by
  intro x hx d hd
  by_cases hxm : x = m
  · subst hxm
    rw [Function.update_self, hs.eventset] at hd
    exact hD x hx d hd
  · rw [Function.update_of_ne hxm] at hd
    exact hD x hx d hd

/-- What a read of `c` over `D` leaves: a row of `c`, and what it does on `D`. -/
structure InnerRun (D : M → Prop) (c : M) (s : M → Hmonitor Thread V M) (l : List (M × Event))
    (s' : M → Hmonitor Thread V M) : Prop where
  self : ∃ events, events.length = (s c).events.length ∧ s' c = { s c with events := events }
  log : ∀ p ∈ l, D p.1 ∨ p = (c, .read)

/-- The operations of a read of `c` over `D` touch nothing else, and nothing else matters to them. -/
theorem Runs.inner (h : Runs t answer ops s l s') (hops : ∀ op ∈ ops, Inner D c op) (hc : ¬ D c) (hD : Closed D s)
    (hr : Agree D c s r) : InnerRun D c s l s' ∧ ∃ r', Runs t answer ops r l r' ∧ Agree D c s' r' ∧
      ∀ x, ¬ D x → x ≠ c → r' x = r x := by
  induction h generalizing r with
  | nil => exact ⟨⟨⟨_, rfl, rfl⟩, fun p hp => absurd hp List.not_mem_nil⟩, r, .nil r, hr, fun _ _ _ => rfl⟩
  | @cons op ops s s' e l he hrest ih =>
    rw [List.forall_mem_cons] at hops
    obtain ⟨hop, hops⟩ := hops
    rcases hop.effect_cases s with hop | ⟨hop, -, events, evs, hlen, hevs, heffect⟩
    · have hne : c ≠ op.target := fun heq => hc (heq ▸ hop.target)
      have hinner : ∀ o ∈ e.ops ++ ops, Inner D c o :=
        List.forall_mem_append.mpr ⟨fun o ho => .below (Op.effect_within hD hop he o ho), hops⟩
      obtain ⟨hrun, r', hr', hagree', hout⟩ := ih hinner (hD.update (Op.effect_shape he)) (hr.update_ne hne _)
      refine ⟨⟨?_, ?_⟩, r', ?_, hagree', fun x hx hxc => ?_⟩
      · have hself := hrun.self
        rwa [Function.update_of_ne hne] at hself
      · rw [List.forall_mem_append]
        refine ⟨fun p hp => ?_, hrun.log⟩
        obtain ⟨ev, -, rfl⟩ := List.mem_map.mp hp
        exact .inl hop.target
      · have he' : op.effect t (answer op.target (r op.target).total) r = some e := by
          rw [hr.below _ hop.target, Op.effect_congr hD hop hr.below, he]
        exact .cons he' hr'
      · rw [hout x hx hxc, Function.update_of_ne (fun hxt => hx (by rw [hxt]; exact hop.target))]
    · subst hop
      obtain rfl := Option.some.inj (he.symm.trans (heffect t _ s (.refl D _ s)))
      obtain ⟨x, hx⟩ := hr.self
      have hagree : Agree D op.target (Function.update s op.target { s op.target with events := events })
          (Function.update r op.target { r op.target with events := events }) := hr.update hc ⟨x, by rw [hx]⟩
      obtain ⟨hrun, r', hr', hagree', hout⟩ := ih hops (hD.update ⟨rfl, rfl⟩) hagree
      refine ⟨⟨?_, ?_⟩, r', .step (heffect t _ r hr) rfl hr', hagree', fun y hy hyc => ?_⟩
      · obtain ⟨events', hlen', hself⟩ := hrun.self
        rw [Function.update_self] at hlen' hself
        exact ⟨events', hlen'.trans hlen, hself⟩
      · rw [List.forall_mem_append]
        refine ⟨fun p hp => ?_, hrun.log⟩
        obtain ⟨ev, hev, rfl⟩ := List.mem_map.mp hp
        exact .inr (by rw [hevs ev hev])
      · rw [hout y hy hyc, Function.update_of_ne hyc]

/-- Monitors outside are left alone. -/
theorem Runs.inner_frame (h : Runs t answer ops s l s') (hops : ∀ op ∈ ops, Inner D c op) (hc : ¬ D c)
    (hD : Closed D s) {x : M} (hx : ¬ D x) (hxc : x ≠ c) : s' x = s x := by
  obtain ⟨-, r', hr', -, hout⟩ := h.inner hops hc hD (.refl D c s)
  obtain ⟨-, rfl⟩ := h.det hr'
  exact hout x hx hxc

end Inner

/-! ## A thread that is alone performs everything -/

section Alone
variable [Double V] [DecidableEq M] {D : M → Prop} {c : M} {s s' : M → Hmonitor Thread V M} {t : Thread}
  {ops : List (Op M)}

/-- The thread waits for no mutex of `D`, and no read of `D` crashes. -/
structure AloneOn (t : Thread) (D : M → Prop) (s : M → Hmonitor Thread V M) : Prop where
  owner : ∀ x, D x → (s x).mutex ≠ none → (s x).owner = t
  children : ∀ x, D x → (s x).eventset ≠ .accumulate []

omit [Double V] in
theorem AloneOn.update {m : M} {h : Hmonitor Thread V M} (ha : AloneOn t D s) (hs : SameShape (s m) h)
    (ho : D m → h.mutex ≠ none → h.owner = t) : AloneOn t D (Function.update s m h) := by
  refine ⟨fun x hx => ?_, fun x hx => ?_⟩
  · by_cases hxm : x = m
    · subst hxm
      rw [Function.update_self]
      exact ho hx
    · rw [Function.update_of_ne hxm]
      exact ha.owner x hx
  · by_cases hxm : x = m
    · subst hxm
      rw [Function.update_self, hs.eventset]
      exact ha.children x hx
    · rw [Function.update_of_ne hxm]
      exact ha.children x hx

/-- A cost on `D` that pays for the children. -/
def PaysOn (cost : M → Nat) (D : M → Prop) (s : M → Hmonitor Thread V M) : Prop :=
  ∀ x, D x → total (fun d => cost d + 4) (s x).eventset.childEvents + 2 ≤ cost x

omit [Double V] in
theorem PaysOn.update {cost : M → Nat} {m : M} {h : Hmonitor Thread V M} (hp : PaysOn cost D s)
    (hs : SameShape (s m) h) : PaysOn cost D (Function.update s m h) := by
  intro x hx
  by_cases hxm : x = m
  · subst hxm
    rw [Function.update_self, hs.eventset]
    exact hp x hx
  · rw [Function.update_of_ne hxm]
    exact hp x hx

/-- The thread can perform an operation of a read over `D`, which costs more than what it leaves to do. -/
theorem AloneOn.effect {op : Op M} {cost : M → Nat} (h : AloneOn t D s) (hp : PaysOn cost D s) (hop : Inner D c op)
    (hc : ¬ D c) (hb : ∀ x, op ≠ .blocked x) (a : Answer V) : ∃ e, op.effect t a s = some e ∧
      AloneOn t D (Function.update s op.target e.mon) ∧ (∀ x, .blocked x ∉ e.ops) ∧
      total (Op.weight cost) e.ops < op.weight cost := by
  rcases hop.effect_cases s with hop | ⟨hop, hweight, events, evs, -, -, heffect⟩
  · have he : ∃ e, op.effect t a s = some e := by
      cases op with
      | read m =>
        simp only [Op.effect]
        split_ifs
        · cases hev : (s m).eventset with
          | leaf | hierarchical cs => exact ⟨_, rfl⟩
          | accumulate cs =>
            cases cs with
            | nil => exact absurd hev (h.children m hop)
            | cons d ds => exact ⟨_, rfl⟩
        · exact ⟨_, rfl⟩
      | lockChild d =>
        simp only [Op.effect]
        split <;> exact ⟨_, rfl⟩
      | blocked d => exact absurd rfl (hb d)
      | start | stop | reduce | reset | unlock | release | copySamples | copyEvents | addEvents | readDone =>
        exact ⟨_, rfl⟩
    obtain ⟨e, he⟩ := he
    obtain ⟨howner, hblocked⟩ := Op.effect_alone (h.owner _ hop.target) hb he
    exact ⟨e, he, h.update (Op.effect_shape he) fun _ => howner, hblocked, Op.effect_weight (hp _ hop.target) he⟩
  · refine ⟨_, heffect t a s (.refl D c s), h.update (hop ▸ ⟨rfl, rfl⟩) fun hd => absurd (hop ▸ hd) hc, ?_, ?_⟩
    · exact fun x hx => absurd hx List.not_mem_nil
    · rw [hweight]
      exact Nat.zero_lt_one

/-- **A thread that is alone on the monitors below a read performs all of its operations.** -/
theorem exists_runs (answer : Replies V M) {cost : M → Nat} (hc : ¬ D c) (hD : Closed D s) (ha : AloneOn t D s)
    (hp : PaysOn cost D s) (hops : ∀ op ∈ ops, Inner D c op) (hb : ∀ x, .blocked x ∉ ops) :
    ∃ l s', Runs t answer ops s l s' ∧ AloneOn t D s' := by
  induction hN : total (Op.weight cost) ops using Nat.strong_induction_on generalizing s ops with
  | _ N ih =>
    cases ops with
    | nil => exact ⟨[], s, .nil s, ha⟩
    | cons op ops =>
      rw [List.forall_mem_cons] at hops
      have hb₁ : ∀ x, op ≠ .blocked x := fun x hx => hb x (by rw [hx]; exact List.mem_cons_self)
      obtain ⟨e, he, ha', hblocked, hweight⟩ :=
        ha.effect hp hops.1 hc hb₁ (answer op.target (s op.target).total)
      have hinner : ∀ o ∈ e.ops ++ ops, Inner D c o := by
        refine List.forall_mem_append.mpr ⟨fun o ho => ?_, hops.2⟩
        rcases hops.1.effect_cases s with hop | ⟨-, -, events, evs, -, -, heffect⟩
        · exact .below (Op.effect_within hD hop he o ho)
        · obtain rfl := Option.some.inj (he.symm.trans (heffect t _ s (.refl D c s)))
          exact absurd ho List.not_mem_nil
      have hrest : ∀ x, .blocked x ∉ e.ops ++ ops := fun x hx =>
        (List.mem_append.mp hx).elim (hblocked x) fun hx => hb x (List.mem_cons_of_mem op hx)
      have hshape := Op.effect_shape he
      have hlt : total (Op.weight cost) (e.ops ++ ops) < N := by
        rw [← hN, total_append, total_cons]
        exact Nat.add_lt_add_right hweight _
      obtain ⟨l, s', hrun, halone⟩ := ih _ hlt (hD.update hshape) ha' (hp.update hshape) hinner hrest rfl
      exact ⟨_, s', .cons he hrun, halone⟩

end Alone

end Hmon
