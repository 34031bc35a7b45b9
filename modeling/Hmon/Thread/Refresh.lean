import Hmon.Thread.Runs

/-!
# One read and one reduction of a child monitor

* `Refreshes k` : the events of `k` reads, each with its reduction;
* `Runs.refresh` : a read and a reduction by the owner are one refreshment, whatever the plugin of the child reads;
* `Runs.lockChild` : so is a read behind `hmonitor_trylock(c, 1)` by a thread that finds the child unlocked.
-/

namespace Hmon
open Lib

variable {V M : Type}

/-- The events of `k` reads of a monitor, each followed by one reduction. -/
inductive Refreshes : Nat → List Event → Prop
  | zero : Refreshes 0 []
  | succ {k : Nat} {reads evs : List Event} : (∀ ev ∈ reads, ev = .read) → Refreshes k evs →
      Refreshes (k + 1) (.sample :: (reads ++ .reduce :: evs))

theorem Refreshes.append {k j : Nat} {evs evs' : List Event} (h : Refreshes k evs) (h' : Refreshes j evs') :
    Refreshes (k + j) (evs ++ evs') := by
  induction h with
  | zero => rwa [Nat.zero_add]
  | @succ k reads evs hreads _ ih =>
    have hnext := Refreshes.succ hreads ih
    rw [Nat.succ_add]
    simpa using hnext

theorem Refreshes.count {k : Nat} {evs : List Event} (h : Refreshes k evs) : evs.count .sample = k := by
  induction h with
  | zero => rfl
  | @succ k reads evs hreads _ ih =>
    have hnone : reads.count .sample = 0 := List.count_eq_zero.mpr fun hmem => absurd (hreads _ hmem) (by decide)
    rw [List.count_cons_self, List.count_append, hnone, List.count_cons_of_ne (by decide), ih, Nat.zero_add]

section Log
variable [DecidableEq M] {c : M}

/-- What a log says of one monitor. -/
def eventsOf (c : M) (l : List (M × Event)) : List Event := (l.filter fun p => p.1 = c).map Prod.snd

theorem eventsOf_append (l l' : List (M × Event)) : eventsOf c (l ++ l') = eventsOf c l ++ eventsOf c l' := by
  unfold eventsOf
  rw [List.filter_append, List.map_append]

theorem eventsOf_nil {l : List (M × Event)} (h : ∀ p ∈ l, p.1 ≠ c) : eventsOf c l = [] := by
  unfold eventsOf
  rw [List.filter_eq_nil_iff.mpr fun p hp => by simpa using h p hp, List.map_nil]

theorem eventsOf_map (evs : List Event) : eventsOf c (evs.map fun ev => (c, ev)) = evs := by
  unfold eventsOf
  rw [List.filter_eq_self.mpr fun p hp => ?_, List.map_map]
  · exact List.map_id evs
  · obtain ⟨ev, -, rfl⟩ := List.mem_map.mp hp
    exact decide_eq_true rfl

end Log

section Refresh
variable [Double V] [DecidableEq M] {D : M → Prop} {c : M} {s s' : M → Hmonitor Thread V M} {t : Thread}
  {answer : Replies V M} {l : List (M × Event)}

omit [DecidableEq M] in
/-- The read of a child by its owner takes a row, whatever mutex it has, and leaves a read over its children to do. -/
theorem read_effect (ho : (s c).owner = t) (hch : ∀ d ∈ (s c).eventset.childEvents, D d)
    (hne : (s c).eventset ≠ .accumulate []) (a : Answer V) : ∃ events evs ops,
      events.length = (s c).events.length ∧ (∀ ev ∈ evs, ev = Event.read) ∧ (∀ op ∈ ops, Inner D c op) ∧
      ∀ r, Agree D c s r →
        (Op.read c).effect t a r = some ⟨{ nextRow a.now (r c) with events := events }, .sample :: evs, ops⟩ := by
  let next := nextRow a.now (s c)
  have hrow : next.events.length = (s c).events.length := List.length_set
  have hsame : ∀ r, Agree D c s r → (r c).owner = t ∧ (r c).eventset = (s c).eventset ∧
      hmonitorGetEvents (nextRow a.now (r c)) (nextRow a.now (r c)).last = hmonitorGetEvents next next.last ∧
      nextRow a.now (r c) = { nextRow a.now (r c) with events := next.events } := by
    intro r hr
    obtain ⟨x, hx⟩ := hr.self
    rw [hx]
    exact ⟨ho, rfl, rfl, rfl⟩
  cases hev : (s c).eventset with
  | leaf =>
    refine ⟨(hmonitorRead t a (s c)).mon.events, if a.ok then [.read] else [], [], ?_, ?_, ?_, fun r hr => ?_⟩
    · unfold hmonitorRead
      rw [if_pos ho]
      split_ifs
      · exact hrow
      · exact (length_writeCells _ _ _).trans hrow
    · split_ifs <;> simp
    · exact fun op hop => absurd hop List.not_mem_nil
    · obtain ⟨x, hx⟩ := hr.self
      simp only [Op.effect, hx, if_pos ho, hev, Outcome.effect, hmonitorRead]
      cases a.ok <;> rfl
  | hierarchical cs =>
    rw [hev] at hch
    have hcs : ∀ d ∈ cs, D d := hch
    refine ⟨next.events, [], hierarchicalRead s c (hmonitorGetEvents next next.last) cs ++ [.readDone c], hrow, ?_, ?_,
      fun r hr => ?_⟩
    · exact fun ev hev => absurd hev List.not_mem_nil
    · exact List.forall_mem_append.mpr ⟨hierarchicalRead_inner hcs, by simpa using Inner.readDone⟩
    · obtain ⟨ho', hev', hbase, hnext⟩ := hsame r hr
      have hread : hierarchicalRead r c (hmonitorGetEvents next next.last) cs =
          hierarchicalRead s c (hmonitorGetEvents next next.last) cs :=
        hierarchicalRead_congr fun d hd => hr.below d (hcs d hd)
      simp only [Op.effect, if_pos ho', hev'.trans hev, hbase, hread]
      rw [← hnext]
  | accumulate cs =>
    rw [hev] at hch hne
    have hcs : ∀ d ∈ cs, D d := hch
    cases hops : accumulateRead c (hmonitorGetEvents next next.last) cs with
    | none =>
      cases cs with
      | nil => exact absurd rfl hne
      | cons d ds => cases hops
    | some ops =>
      refine ⟨next.events, [], ops ++ [.readDone c], hrow, ?_, ?_, fun r hr => ?_⟩
      · exact fun ev hev => absurd hev List.not_mem_nil
      · exact List.forall_mem_append.mpr ⟨accumulateRead_inner hcs hops, by simpa using Inner.readDone⟩
      · obtain ⟨ho', hev', hbase, hnext⟩ := hsame r hr
        simp only [Op.effect, if_pos ho', hev'.trans hev, hbase, hops, Option.map_some]
        rw [← hnext]

/-- What a read and a reduction of `c` by its owner leave. -/
structure RefreshRun (t : Thread) (D : M → Prop) (c : M) (s : M → Hmonitor Thread V M) (l : List (M × Event))
    (s' : M → Hmonitor Thread V M) : Prop where
  mon : ∃ now events, events.length = (s c).events.length ∧
    s' c = (hmonitorReduce t { nextRow now (s c) with events := events }).mon
  refreshes : Refreshes 1 (eventsOf c l)
  log : ∀ p ∈ l, D p.1 ∨ p.1 = c
  out : ∀ x, ¬ D x → x ≠ c → s' x = s x

omit [DecidableEq M] in
/-- A reduction by the owner, whatever mutex the monitor has. -/
theorem reduce_effect (ho : (s c).owner = t) (a : Answer V) (r : M → Hmonitor Thread V M) (x : Option Thread)
    (hx : r c = { s c with mutex := x }) : (Op.reduce c).effect t a r =
      some ⟨{ (hmonitorReduce t (s c)).mon with mutex := x }, [.reduce], []⟩ := by
  simp only [Op.effect, hmonitorReduce, hx, if_pos ho]
  rfl

/-- The log does not name a monitor that is neither the child nor below it. -/
theorem RefreshRun.log_ne (h : RefreshRun t D c s l s') {x : M} (hx : ¬ D x) (hxc : x ≠ c) :
    ∀ p ∈ l, p.1 ≠ x := by
  intro p hp heq
  rcases h.log p hp with hD | hpc
  · exact hx (heq ▸ hD)
  · exact hxc (heq.symm.trans hpc)

omit [Double V] in
/-- A sample, the reads of the monitors below and a reduction are one refreshment. -/
theorem refresh_log (hc : ¬ D c) {evs : List Event} {l₁ : List (M × Event)} (hevs : ∀ ev ∈ evs, ev = .read)
    (hlog : ∀ p ∈ l₁, D p.1 ∨ p = (c, .read)) :
    let l := (Event.sample :: evs).map (fun ev => (c, ev)) ++ (l₁ ++ ([Event.reduce].map (fun ev => (c, ev)) ++ []))
    Refreshes 1 (eventsOf c l) ∧ ∀ p ∈ l, D p.1 ∨ p.1 = c := by
  have hreads : ∀ ev ∈ eventsOf c l₁, ev = .read := by
    intro ev hev
    obtain ⟨p, hp, rfl⟩ := List.mem_map.mp hev
    obtain ⟨hp, hpc⟩ := List.mem_filter.mp hp
    rcases hlog p hp with hD | rfl
    · exact absurd (of_decide_eq_true hpc) fun heq => hc (heq ▸ hD)
    · rfl
  have hself : ∀ evs : List Event, ∀ p ∈ evs.map (fun ev => (c, ev)), D p.1 ∨ p.1 = c := by
    intro evs p hp
    obtain ⟨ev, -, rfl⟩ := List.mem_map.mp hp
    exact .inr rfl
  rw [List.append_nil]
  constructor
  · rw [eventsOf_append, eventsOf_append, eventsOf_map, eventsOf_map, List.cons_append, ← List.append_assoc]
    exact .succ (List.forall_mem_append.mpr ⟨hevs, hreads⟩) .zero
  · rw [List.forall_mem_append, List.forall_mem_append]
    refine ⟨hself _, fun p hp => ?_, hself _⟩
    rcases hlog p hp with hD | rfl
    · exact .inl hD
    · exact .inr rfl

/-- **A read and a reduction by the owner take one row and reduce once, and touch nothing but the child and what is
below it; but for the mutex of the child, nothing else matters to them.** -/
theorem Runs.refresh (h : Runs t answer [.read c, .reduce c] s l s') (ho : (s c).owner = t) (hc : ¬ D c)
    (hD : Closed D s) (hch : ∀ d ∈ (s c).eventset.childEvents, D d) (hne : (s c).eventset ≠ .accumulate [])
    {r : M → Hmonitor Thread V M} (hr : Agree D c s r) : RefreshRun t D c s l s' ∧
      ∃ r', Runs t answer [.read c, .reduce c] r l r' ∧ Agree D c s' r' ∧ ∀ x, ¬ D x → x ≠ c → r' x = r x := by
  obtain ⟨events, evs, ops, hlen, hevs, hops, heffect⟩ := read_effect ho hch hne (answer c (s c).total)
  let now := (answer c (s c).total).now
  let s₀ := Function.update s c { nextRow now (s c) with events := events }
  let r₀ := Function.update r c { nextRow now (r c) with events := events }
  obtain ⟨x, hx⟩ := hr.self
  have hagree₀ : Agree D c s₀ r₀ := by
    refine hr.update hc ⟨x, ?_⟩
    rw [hx]
    rfl
  obtain ⟨l', rfl, hrest⟩ := h.uncons (heffect s (.refl D c s))
  obtain ⟨s₁, l₁, l₂, rfl, hinner, hreduce⟩ := hrest.split
  have hinner : Runs t answer ops s₀ l₁ s₁ := hinner
  obtain ⟨hrun, r₁, hr₁, hagree₁, hout⟩ := hinner.inner hops hc (hD.update ⟨rfl, rfl⟩) hagree₀
  obtain ⟨events', hlen', hself⟩ := hrun.self
  rw [show s₀ c = { nextRow now (s c) with events := events } from Function.update_self ..] at hlen' hself
  have ho₁ : (s₁ c).owner = t := by
    rw [hself]
    exact ho
  have heffect₁ := reduce_effect ho₁ (answer c (s₁ c).total) (M := M)
  obtain ⟨l₃, rfl, hnil⟩ := hreduce.uncons (heffect₁ s₁ (s₁ c).mutex rfl)
  cases hnil
  obtain ⟨y, hy⟩ := hagree₁.self
  have htotal : (r c).total = (s c).total := by rw [hx]
  have htotal₁ : (r₁ c).total = (s₁ c).total := by rw [hy]
  have hr' : Runs t answer [.reduce c] r₁ _ _ := .step (heffect₁ r₁ y hy) (congrArg (answer c) htotal₁) (.nil _)
  obtain ⟨hrefreshes, hlog⟩ := refresh_log hc hevs hrun.log
  refine ⟨⟨⟨now, events', hlen'.trans hlen, ?_⟩, hrefreshes, hlog, fun z hz hzc => ?_⟩, _,
    .step (heffect r hr) (congrArg (answer c) htotal) (hr₁.append hr'), hagree₁.update hc ⟨y, rfl⟩, fun z hz hzc => ?_⟩
  · have hmutex := (hmonitorReduce_control t (s₁ c)).mutex
    show Function.update s₁ c { (hmonitorReduce t (s₁ c)).mon with mutex := (s₁ c).mutex } c = _
    rw [Function.update_self, ← hmutex, hself]
  · show Function.update s₁ c _ z = _
    rw [Function.update_of_ne hzc, hinner.inner_frame hops hc (hD.update ⟨rfl, rfl⟩) hz hzc]
    exact Function.update_of_ne hzc _ _
  · show Function.update r₁ c _ z = _
    rw [Function.update_of_ne hzc, hout z hz hzc]
    exact Function.update_of_ne hzc _ _

omit [DecidableEq M] in
/-- A thread that waits for nobody gets the child. -/
theorem lockChild_effect (ha : (s c).mutex ≠ none → (s c).owner = t) (a : Answer V) :
    (Op.lockChild c).effect t a s =
      some ⟨{ s c with owner := t, mutex := (s c).mutex.or (some t) }, [], [.read c, .reduce c, .release c]⟩ := by
  simp only [Op.effect, hmonitorTrylock]
  cases hm : (s c).mutex with
  | none => rfl
  | some u =>
    have ho : (s c).owner = t := ha (hm ▸ Option.some_ne_none u)
    simp only [if_pos ho, Option.or]
    rw [← ho, ← hm]
    rfl

/-- **A read behind the lock of the child is one refreshment of the child as its owner, which leaves it unlocked.** -/
theorem Runs.lockChild (h : Runs t answer [.lockChild c] s l s') (ha : (s c).mutex ≠ none → (s c).owner = t)
    (hc : ¬ D c) (hD : Closed D s) (hch : ∀ d ∈ (s c).eventset.childEvents, D d)
    (hne : (s c).eventset ≠ .accumulate []) : ∃ x s₂,
      Runs t answer [.read c, .reduce c] (Function.update s c { s c with owner := t, mutex := x }) l s₂ ∧
      RefreshRun t D c (Function.update s c { s c with owner := t, mutex := x }) l s₂ ∧
      s' = Function.update s₂ c { s₂ c with mutex := none } := by
  let x := (s c).mutex.or (some t)
  let s₁ := Function.update s c { s c with owner := t, mutex := x }
  obtain ⟨_, rfl, hrest⟩ := h.uncons (lockChild_effect ha _)
  have hrest : Runs t answer ([.read c, .reduce c] ++ [.release c]) s₁ l s' := hrest
  obtain ⟨s₂, l₁, l₂, rfl, hrefresh, hrelease⟩ := hrest.split
  have hself : s₁ c = { s c with owner := t, mutex := x } := Function.update_self ..
  have hset : (s₁ c).eventset = (s c).eventset := by rw [hself]
  obtain ⟨hrun, -⟩ := hrefresh.refresh (by rw [hself]) hc (hD.update ⟨rfl, rfl⟩) (by rwa [hset]) (by rwa [hset])
    (.refl D c s₁)
  have ho : (s₂ c).owner = t := by
    obtain ⟨now, events, -, hmon⟩ := hrun.mon
    rw [hmon, (hmonitorReduce_control t _).owner]
    show (s₁ c).owner = t
    rw [hself]
  have heffect : (Op.release c).effect t (answer c (s₂ c).total) s₂ = some ⟨{ s₂ c with mutex := none }, [], []⟩ := by
    simp only [Op.effect, hmonitorRelease, if_pos ho]
    rfl
  obtain ⟨_, rfl, hnil⟩ := hrelease.uncons heffect
  cases hnil
  rw [List.append_nil]
  exact ⟨x, s₂, hrefresh, hrun, rfl⟩

end Refresh

end Hmon
