import Hmon.Config.Globals

/-!
# Blocks do not depend on each other

* `Local P` : the parser `P` sees what it reads and the next token; `sepBy_local`, `field_local`, `monitor_local` : the
  productions are local, and a monitor is independent of what follows;
* `config_parts` : the blocks of a configuration are the blocks of its parts, one by one;
* `imports_independent` : **in a sequence of imports every block makes the calls that it makes alone**.
-/

namespace Hmon.Config
open Lib

/-! ## What a parser sees -/

section Local
variable {S T : Type}

/-- The parser reads something, and what it makes of it depends on the next token at most. -/
def Local (P : S → List T → Option (S × List T)) : Prop :=
  ∀ s ts s' ts', P s ts = some (s', ts') →
    ∃ u, ts = u ++ ts' ∧ u ≠ [] ∧ ∀ v, v.head? = ts'.head? → P s (u ++ v) = some (s', v)

/-- The same for a separator, which may read nothing, and for its absence. -/
structure LocalNext (next : List T → Option (List T)) : Prop where
  some : ∀ ts ts', next ts = some ts' → ∃ u, ts = u ++ ts' ∧ ∀ v, v.head? = ts'.head? → next (u ++ v) = some v
  none : ∀ ts, next ts = none → ∀ v, v.head? = ts.head? → next v = none

theorem head?_append_congr {u v w : List T} (h : u ≠ []) : (u ++ v).head? = (u ++ w).head? := by
  cases u with
  | nil => exact absurd rfl h
  | cons t u => rfl

theorem sepBy_local {item : S → List T → Option (S × List T)} {next : List T → Option (List T)} (hitem : Local item)
    (hnext : LocalNext next) {fuel : Nat} {s s' : S} {ts ts' : List T}
    (h : sepBy item next fuel s ts = some (s', ts')) :
    ∃ u, ts = u ++ ts' ∧ u ≠ [] ∧
      ∀ v, v.head? = ts'.head? → ∀ fuel', (u ++ v).length < fuel' →
        sepBy item next fuel' s (u ++ v) = some (s', v) := by
  induction fuel generalizing s ts with
  | zero => cases h
  | succ fuel ih =>
    obtain ⟨s₁, ts₁, hi, hrest⟩ := sepBy_step h
    obtain ⟨u₁, rfl, hu₁, h₁⟩ := hitem s ts s₁ ts₁ hi
    rcases hrest with ⟨hn, hb⟩ | ⟨ts₂, hn, hmore⟩
    · cases hb
      refine ⟨u₁, rfl, hu₁, fun v hv fuel' hfuel => ?_⟩
      obtain ⟨n, rfl⟩ : ∃ n, fuel' = n + 1 := ⟨fuel' - 1, by omega⟩
      simp only [sepBy, h₁ v hv, hnext.none _ hn v hv]
    · obtain ⟨u₂, rfl, h₂⟩ := hnext.some ts₁ ts₂ hn
      obtain ⟨u₃, rfl, hu₃, h₃⟩ := ih hmore
      refine ⟨u₁ ++ (u₂ ++ u₃), by simp only [List.append_assoc], by simp [hu₁], fun v hv fuel' hfuel => ?_⟩
      obtain ⟨n, rfl⟩ : ∃ n, fuel' = n + 1 := ⟨fuel' - 1, by omega⟩
      have hhead : (u₂ ++ (u₃ ++ v)).head? = (u₂ ++ (u₃ ++ ts')).head? := by
        rw [← List.append_assoc, ← List.append_assoc]
        exact head?_append_congr (by simp [hu₃])
      have hlen : 0 < u₁.length := List.length_pos_of_ne_nil hu₁
      simp only [List.append_assoc, List.length_append] at hfuel ⊢
      simp only [sepBy, h₁ _ hhead, h₂ _ (head?_append_congr hu₃)]
      exact h₃ v hv n (by rw [List.length_append]; omega)

end Local

theorem comma_local : LocalNext comma where
  some ts ts' h := by
    unfold comma at h
    split at h
    · cases h
      exact ⟨[.char ','], rfl, fun _ _ => rfl⟩
    · cases h
  none ts h v hv := by
    unfold comma at h ⊢
    split at h
    · cases h
    · rename_i hno
      split
      · rename_i ts''
        cases ts with
        | nil => cases hv
        | cons t ts =>
          cases hv
          exact absurd rfl (hno ts)
      · rfl

theorem nextField_local : LocalNext nextField where
  some ts ts' h := by
    unfold nextField at h
    split at h
    · cases h
    · rename_i hno
      cases h
      refine ⟨[], rfl, fun v hv => ?_⟩
      rw [List.nil_append]
      unfold nextField
      split
      · rename_i ts''
        cases ts with
        | nil => cases hv
        | cons t ts =>
          cases hv
          exact absurd rfl (hno ts)
      · rfl
  none ts h v hv := by
    unfold nextField at h
    split at h
    · cases v with
      | nil => cases hv
      | cons t v =>
        cases hv
        rfl
    · cases h

/-! ## The productions are local -/

theorem assignement_local : Local assignement := by
  intro f ts f' ts' h
  unfold assignement at h
  split at h
  · rename_i n us
    split at h
    · rename_i x rest hexpr
      cases h
      obtain ⟨us₁, rfl, hd, c, hc, hhead⟩ := commExpr_iff.mp hexpr
      refine ⟨.name n :: .char '=' :: us₁, rfl, List.cons_ne_nil _ _, fun v hv => ?_⟩
      have hexpr' : commExpr [] .empty none (us₁ ++ v) = some (x, v) :=
        commExpr_iff.mpr ⟨us₁, rfl, hd, c, hc, hv.trans hhead⟩
      simp only [List.cons_append, assignement, hexpr']
    · cases h
  · cases h

theorem assignementList_local : Local assignementList := by
  intro f ts f' ts' h
  obtain ⟨u, rfl, hu, hlocal⟩ := sepBy_local assignement_local comma_local h
  exact ⟨u, rfl, hu, fun v hv => hlocal v hv _ (Nat.lt_succ_self _)⟩

theorem event_local : Local event := by
  intro es ts es' ts' h
  unfold event at h
  split at h
  · cases h; exact ⟨[_], rfl, List.cons_ne_nil _ _, fun _ _ => rfl⟩
  · cases h; exact ⟨[_], rfl, List.cons_ne_nil _ _, fun _ _ => rfl⟩
  · cases h; exact ⟨[_], rfl, List.cons_ne_nil _ _, fun _ _ => rfl⟩
  · cases h

theorem semicolon_local : Local semicolon := by
  intro f ts f' ts' h
  unfold semicolon at h
  split at h
  · cases h; exact ⟨[_], rfl, List.cons_ne_nil _ _, fun _ _ => rfl⟩
  · cases h

/-- An assignment begins with a name. -/
theorem assignementList_not_integer {f : Fields} {n : Text} {ts : List Token} :
    assignementList f (.integer n :: ts) = none :=
  rfl

theorem reduction_local : Local reduction := by
  intro f ts f' ts' h
  by_cases hplugin : ∃ n p us, ts = .integer n :: .char '#' :: .name p :: us
  · obtain ⟨n, p, us, rfl⟩ := hplugin
    cases h
    exact ⟨[_, _, _], rfl, List.cons_ne_nil _ _, fun _ _ => rfl⟩
  · have hF := (reduction_list (r := .ok Globals.init) (f := f) fun n p us he => hplugin ⟨n, p, us, he⟩).2
    rw [hF] at h
    obtain ⟨⟨f₁, ts₁⟩, hl, he⟩ := Option.map_eq_some_iff.mp h
    cases he
    obtain ⟨u, rfl, hu, hlocal⟩ := assignementList_local _ _ _ _ hl
    refine ⟨u, rfl, hu, fun v hv => ?_⟩
    have hno : ∀ n p us, u ++ v ≠ .integer n :: .char '#' :: .name p :: us := fun n p us he => by
      cases u with
      | nil => exact hu rfl
      | cons t u =>
        cases (List.cons.inj he).1
        rw [List.cons_append, assignementList_not_integer] at hl
        cases hl
    rw [(reduction_list (r := .ok Globals.init) (f := f) hno).2, hlocal v hv]
    rfl

theorem field_local (locationParse : Text → Option Nat) : Local (field locationParse) := by
  intro f ts f' ts' h
  unfold field at h
  split at h
  · rename_i s us
    obtain ⟨d, hd, he⟩ := Option.map_eq_some_iff.mp h
    cases he
    refine ⟨[.objField, .name s, .char ';'], rfl, List.cons_ne_nil _ _, fun v _ => ?_⟩
    simp only [List.cons_append, List.nil_append, field, hd, Option.map_some]
  · rename_i s i us
    obtain ⟨d, hd, he⟩ := Option.map_eq_some_iff.mp h
    cases he
    refine ⟨[.objField, .name s, .char ':', .integer i, .char ';'], rfl, List.cons_ne_nil _ _, fun v _ => ?_⟩
    simp only [List.cons_append, List.nil_append, field, hd, Option.map_some]
  · rename_i us
    obtain ⟨⟨f₁, ts₁⟩, hr, hs⟩ := Option.bind_eq_some_iff.mp h
    obtain ⟨u₁, rfl, -, h₁⟩ := reduction_local _ _ _ _ hr
    obtain ⟨u₂, rfl, hu₂, h₂⟩ := semicolon_local _ _ _ _ hs
    refine ⟨.reductionField :: (u₁ ++ u₂), by simp, List.cons_ne_nil _ _, fun v hv => ?_⟩
    simp only [List.cons_append, List.append_assoc, field, h₁ _ (head?_append_congr hu₂), Option.bind_some, h₂ v hv]
  · cases h
    exact ⟨[_, _, _], rfl, List.cons_ne_nil _ _, fun _ _ => rfl⟩
  · cases h
    exact ⟨[_, _, _], rfl, List.cons_ne_nil _ _, fun _ _ => rfl⟩
  · cases h
    exact ⟨[_, _, _], rfl, List.cons_ne_nil _ _, fun _ _ => rfl⟩
  · cases h
    exact ⟨[_, _, _], rfl, List.cons_ne_nil _ _, fun _ _ => rfl⟩
  · cases h
    exact ⟨[_, _, _], rfl, List.cons_ne_nil _ _, fun _ _ => rfl⟩
  · rename_i us
    obtain ⟨⟨es, ts₁⟩, hr, hs⟩ := Option.bind_eq_some_iff.mp h
    obtain ⟨u₁, rfl, -, h₁⟩ := sepBy_local event_local comma_local hr
    obtain ⟨u₂, rfl, hu₂, h₂⟩ := semicolon_local _ _ _ _ hs
    refine ⟨.evsetField :: (u₁ ++ u₂), by simp, List.cons_ne_nil _ _, fun v hv => ?_⟩
    have hevents := h₁ (u₂ ++ v) (head?_append_congr hu₂) _ (Nat.lt_succ_self _)
    simp only [List.cons_append, List.append_assoc, field, hevents, Option.bind_some, h₂ v hv]
  · cases h

/-! ## The parts of a configuration -/

section Parts
variable {locationParse : Text → Option Nat}

/-- A monitor depends neither on the monitors before it nor on anything behind its brace. -/
theorem monitor_local {bs bs' : List Block} {ts ts' : List Token} (h : monitor locationParse bs ts = some (bs', ts')) :
    ∃ u b, ts = u ++ ts' ∧ bs' = bs ++ [b] ∧ u ≠ [] ∧
      ∀ bs v, monitor locationParse bs (u ++ v) = some (bs ++ [b], v) := by
  unfold monitor at h
  split at h
  · rename_i id us
    split at h
    · rename_i f rest hf
      cases h
      obtain ⟨u, rfl, hu, hlocal⟩ := sepBy_local (field_local locationParse) nextField_local hf
      refine ⟨.name id :: .char '{' :: (u ++ [.char '}']), _, by simp, rfl, List.cons_ne_nil _ _, fun bs v => ?_⟩
      have hfields : fieldList locationParse (u ++ .char '}' :: v) = some (f, .char '}' :: v) :=
        hlocal (.char '}' :: v) rfl _ (Nat.lt_succ_self _)
      simp only [List.cons_append, List.append_assoc, List.nil_append, monitor, hfields]
    · cases h
  · cases h

theorem monitors_parts {fuel : Nat} {bs bs' : List Block} {ts : List Token}
    (h : sepBy (monitor locationParse) nextMonitor fuel bs ts = some (bs', [])) :
    ∃ parts new, ts = parts.flatten ∧ bs' = bs ++ new ∧
      List.Forall₂ (fun part b => config locationParse part = some [b]) parts new := by
  induction fuel generalizing bs ts with
  | zero => cases h
  | succ fuel ih =>
    obtain ⟨bs₁, ts₁, hm, hrest⟩ := sepBy_step h
    obtain ⟨u, b, rfl, rfl, hu, hlocal⟩ := monitor_local hm
    have hone : config locationParse u = some [b] := by
      have hu' := hlocal [] []
      rw [List.append_nil, List.nil_append] at hu'
      simp only [config, sepBy, hu', nextMonitor, if_true]
    rcases hrest with ⟨-, hb⟩ | ⟨ts₂, hn, hmore⟩
    · cases hb
      exact ⟨[u], [b], by simp, rfl, .cons hone .nil⟩
    · unfold nextMonitor at hn
      split_ifs at hn
      cases hn
      obtain ⟨parts, new, rfl, rfl, hparts⟩ := ih hmore
      exact ⟨u :: parts, b :: new, rfl, by simp, .cons hone hparts⟩

/-- **The blocks of a configuration are the blocks of its parts.** -/
theorem config_parts {ts : List Token} {bs : List Block} (h : config locationParse ts = some bs) :
    ∃ parts, ts = parts.flatten ∧ List.Forall₂ (fun part b => config locationParse part = some [b]) parts bs := by
  unfold config at h
  split at h
  · rename_i bs' hm
    cases h
    obtain ⟨parts, new, hts, rfl, hparts⟩ := monitors_parts hm
    exact ⟨parts, hts, hparts⟩
  · cases h

end Parts

/-! ## An import and its blocks -/

/-- The pointers that `reset_monitor_fields` frees are NULL; the arrays may dangle. -/
structure Ready (g : Globals) : Prop where
  perf : g.perfPluginName = .null
  plugin : g.reductionPluginName = .null
  code : g.reductionCode = .null

theorem init_ready : Ready .init := ⟨rfl, rfl, rfl⟩

theorem newHarray_lists : Lists (.live (newHarray 16)) [] :=
  ⟨newHarray 16, rfl, newHarray_fits 16, ⟨4, by decide, rfl⟩, rfl⟩

theorem importInit_stands {g : Globals} (h : Ready g) : ∃ g', importInit g = .ok g' ∧ Stands g' .reset := by
  obtain ⟨events, he, hevents⟩ := emptyPtr_lists newHarray_lists
  unfold importInit resetMonitorFields
  simp only [bind, Except.bind, h.perf, h.plugin, h.code, Ptr.free, he]
  exact ⟨_, rfl, rfl, rfl, rfl, rfl, rfl, rfl, rfl, rfl, hevents, hevents⟩

theorem importFinalize_ready {g : Globals} (h : Stands g .reset) : ∃ g', importFinalize g = .ok g' ∧ Ready g' := by
  obtain ⟨events, he, -⟩ := h.events
  obtain ⟨reductions, hr, -⟩ := h.reductions
  unfold importFinalize
  simp only [bind, Except.bind, h.code, h.plugin, he, hr, Ptr.free]
  exact ⟨_, rfl, h.perf, rfl, rfl⟩

/-- The parser makes the calls of the blocks. -/
theorem yyparse_together {inside : Cpuset → Nat → List Obj} {root : Option Obj} (locationParse : Text → Option Nat)
    {r : ImportRun} (h : SimImport inside root r []) (ts : List Token) :
    Option.Rel (SimImport inside root) (yyparse inside root locationParse r ts) (config locationParse ts) := by
  unfold yyparse config
  have hrel : Option.Rel (Aligned (SimImport inside root))
      (sepBy (monitorG inside root locationParse) nextMonitor (ts.length + 1) r ts)
      (sepBy (monitor locationParse) nextMonitor (ts.length + 1) [] ts) :=
    sepBy_rel (fun _ _ ts h => monitor_together h ts) h
  generalize sepBy (monitorG inside root locationParse) nextMonitor (ts.length + 1) r ts = o at hrel ⊢
  generalize sepBy (monitor locationParse) nextMonitor (ts.length + 1) [] ts = o' at hrel ⊢
  cases hrel with
  | none => exact .none
  | @some a b hab =>
    obtain ⟨r', ts₁⟩ := a
    obtain ⟨bs, ts₂⟩ := b
    obtain ⟨hsim, hts⟩ := hab
    cases hts
    cases ts₁ with
    | nil => exact .some hsim
    | cons t ts₁ => exact .none

/-- The blocks of an import. -/
def Import.blocks (i : Import) : Option (List Block) := config i.locationParse (scan i.text)

/-- What an import makes of its blocks, and of the variables. -/
def SimBlocks (i : Import) (r : ImportRun) (bs : List Block) : Prop :=
  (∀ calls g, r = .ok (calls, g) → List.Forall₂ (MakesCalls i.inside (i.covering i.domain)) bs calls ∧ Ready g) ∧
    ((∀ b ∈ bs, Creatable i.inside (i.covering i.domain) b) → ∃ calls g, r = .ok (calls, g))

/-- **An import from variables that are ready makes the calls of its blocks.** -/
theorem hmonImport_together (i : Import) {g : Globals} (h : Ready g) :
    Option.Rel (SimBlocks i) (hmonImport i g) i.blocks := by
  obtain ⟨g₀, hinit, hreset⟩ := importInit_stands h
  have hstart : SimImport i.inside (i.covering i.domain) (.ok ([], g₀)) [] :=
    ⟨fun _ _ he => by cases he; exact ⟨.nil, hreset⟩, fun _ => ⟨[], g₀, rfl⟩⟩
  have hrel := yyparse_together i.locationParse hstart (scan i.text)
  unfold hmonImport Import.blocks
  simp only [hinit, bind, Except.bind]
  generalize yyparse i.inside (i.covering i.domain) i.locationParse (.ok ([], g₀)) (scan i.text) = o at hrel ⊢
  generalize config i.locationParse (scan i.text) = o' at hrel ⊢
  cases hrel with
  | none => exact .none
  | @some r bs hsim =>
    refine .some ⟨fun calls g' hrun => ?_, fun hall => ?_⟩
    · cases r with
      | error e => cases hrun
      | ok a =>
        obtain ⟨calls₁, g₁⟩ := a
        obtain ⟨hcalls, hstands⟩ := hsim.1 calls₁ g₁ rfl
        obtain ⟨g₂, hfinal, hready⟩ := importFinalize_ready hstands
        simp only [hfinal] at hrun
        cases hrun
        exact ⟨hcalls, hready⟩
    · obtain ⟨calls, g₁, rfl⟩ := hsim.2 hall
      obtain ⟨g₂, hfinal, -⟩ := importFinalize_ready (hsim.1 calls g₁ rfl).2
      exact ⟨calls, g₂, by simp only [hfinal]⟩

/-! ## Alone and in a sequence -/

/-- The import, alone in a program, makes the calls, those of one block. -/
def Alone (i : Import) (c : BlockCalls) : Prop := ∃ g, hmonImport i .init = some (.ok ([c], g))

/-- The text of the import is that of the imports `is` together; nothing else differs. -/
structure SplitsInto (i : Import) (is : List Import) : Prop where
  text : i.text = (is.map Import.text).flatten
  env : ∀ j ∈ is, j = { i with text := j.text }

theorem splitsInto_self (i : Import) : SplitsInto i [i] where
  text := by simp
  env j hj := by
    rw [List.mem_singleton.mp hj]

theorem forall₂_trans {α β γ : Type} {R : α → β → Prop} {S : β → γ → Prop} {T : α → γ → Prop}
    (hT : ∀ a b c, R a b → S b c → T a c) {as : List α} {bs : List β} {cs : List γ} (hR : List.Forall₂ R as bs)
    (hS : List.Forall₂ S bs cs) : List.Forall₂ T as cs := by
  induction hR generalizing cs with
  | nil =>
    rw [List.forall₂_nil_left_iff.mp hS]
    exact .nil
  | cons hab _ ih =>
    obtain ⟨c, cs, hbc, hcs, rfl⟩ := List.forall₂_cons_left_iff.mp hS
    exact .cons (hT _ _ _ hab hbc) (ih hcs)

/-- An import whose blocks are `bs` splits into one import for each of them. -/
theorem blocks_split {i : Import} {bs : List Block} (h : i.blocks = some bs) :
    ∃ is, SplitsInto i is ∧ List.Forall₂ (fun j b => j.blocks = some [b]) is bs := by
  obtain ⟨parts, hscan, hparts⟩ := config_parts h
  cases parts with
  | nil =>
    unfold Import.blocks at h
    rw [hscan] at h
    cases h
  | cons part parts =>
    obtain ⟨texts, htext, htexts⟩ := Lexer.scan_parts hscan
    refine ⟨texts.map fun t => { i with text := t }, ⟨?_, fun j hj => ?_⟩, ?_⟩
    · rw [List.map_map]
      exact htext.trans (by simp [Function.comp_def])
    · obtain ⟨t, -, rfl⟩ := List.mem_map.mp hj
      rfl
    · rw [List.forall₂_map_left_iff]
      refine forall₂_trans (fun t ts b hts hb => ?_) htexts hparts
      unfold Import.blocks scan
      rw [hts, hb]

theorem makesCalls_unique (inside : Cpuset → Nat → List Obj) (root : Option Obj) :
    Relator.RightUnique (MakesCalls inside root) := by
  intro b c c' h h'
  obtain ⟨new, display⟩ := c
  obtain ⟨new', display'⟩ := c'
  obtain ⟨-, hnew, hdisplay⟩ := h
  obtain ⟨-, hnew', hdisplay'⟩ := h'
  rw [hnew] at hnew'
  cases hnew'
  cases hdisplay
  cases hdisplay'
  rfl

/-- Alone, an import of one block makes the calls of the block. -/
theorem alone_iff {i : Import} {b : Block} (h : i.blocks = some [b]) {c : BlockCalls} :
    Alone i c ↔ MakesCalls i.inside (i.covering i.domain) b c := by
  have hrel := hmonImport_together i init_ready
  rw [h] at hrel
  unfold Alone
  generalize hmonImport i .init = o at hrel ⊢
  cases hrel with
  | @some r _ hsim =>
    constructor
    · rintro ⟨g, hg⟩
      have hone := (hsim.1 [c] g (Option.some.inj hg)).1
      exact (List.forall₂_cons.mp hone).1
    · intro hc
      obtain ⟨calls, g, rfl⟩ := hsim.2 fun b' hb' => by
        rw [List.mem_singleton.mp hb']
        exact ⟨c, hc⟩
      obtain ⟨c', cs, hc', hcs, rfl⟩ := List.forall₂_cons_left_iff.mp (hsim.1 calls g rfl).1
      rw [List.forall₂_nil_left_iff.mp hcs, makesCalls_unique _ _ hc' hc]
      exact ⟨g, rfl⟩

/-- The blocks of an import make the calls of the imports that it splits into. -/
theorem alone_calls {i : Import} {is : List Import} {bs : List Block} (henv : ∀ j ∈ is, j = { i with text := j.text })
    (h : List.Forall₂ (fun j b => j.blocks = some [b]) is bs) (calls : List BlockCalls) :
    List.Forall₂ Alone is calls ↔ List.Forall₂ (MakesCalls i.inside (i.covering i.domain)) bs calls := by
  induction h generalizing calls with
  | nil => rw [List.forall₂_nil_left_iff, List.forall₂_nil_left_iff]
  | @cons j b is bs hb _ ih =>
    rw [List.forall_mem_cons] at henv
    have hj : ∀ c, Alone j c ↔ MakesCalls i.inside (i.covering i.domain) b c := fun c => by
      rw [alone_iff hb, henv.1]
    simp only [List.forall₂_cons_left_iff, hj, ih henv.2]

/-- An import returns exactly when its blocks do, and makes their calls. -/
theorem hmonImport_alone {i : Import} {g : Globals} (hg : Ready g) {r : ImportRun} (h : hmonImport i g = some r) :
    ∃ is, SplitsInto i is ∧ (∀ calls, (∃ g', r = .ok (calls, g')) ↔ List.Forall₂ Alone is calls) ∧
      ∀ calls g', r = .ok (calls, g') → Ready g' := by
  have hrel := hmonImport_together i hg
  rw [h] at hrel
  generalize hbs : i.blocks = o at hrel
  cases hrel with
  | @some _ bs hsim =>
    obtain ⟨is, hsplit, hblocks⟩ := blocks_split hbs
    refine ⟨is, hsplit, fun calls => ?_, fun calls g' hr => (hsim.1 calls g' hr).2⟩
    rw [alone_calls hsplit.env hblocks]
    refine ⟨fun ⟨g', hr⟩ => (hsim.1 calls g' hr).1, fun hcalls => ?_⟩
    have hcreatable : ∀ b ∈ bs, Creatable i.inside (i.covering i.domain) b := by
      intro b hb
      obtain ⟨k, hk, rfl⟩ := List.mem_iff_getElem.mp hb
      exact ⟨_, hcalls.get hk (hcalls.length_eq ▸ hk)⟩
    obtain ⟨calls', g', hr⟩ := hsim.2 hcreatable
    have heq : calls = calls' :=
      List.right_unique_forall₂' (makesCalls_unique _ _) hcalls (hsim.1 calls' g' hr).1
    exact ⟨g', heq ▸ hr⟩

/-- The imports of a sequence from variables that are ready. -/
theorem hmonImports_alone {is : List Import} {g : Globals} (hg : Ready g)
    {r : Except MemoryFault (List (List BlockCalls))} (h : hmonImports is g = some r) :
    ∃ blocks, List.Forall₂ SplitsInto is blocks ∧
      ∀ traces, r = .ok traces ↔ List.Forall₂ (List.Forall₂ Alone) blocks traces := by
  induction is generalizing g r with
  | nil =>
    cases h
    refine ⟨[], .nil, fun traces => ?_⟩
    rw [List.forall₂_nil_left_iff, Except.ok.injEq, eq_comm]
  | cons i is ih =>
    obtain ⟨r₁, hr₁, hrest⟩ := Option.bind_eq_some_iff.mp h
    obtain ⟨js, hsplit, hcalls, hready⟩ := hmonImport_alone hg hr₁
    cases r₁ with
    | error e =>
      cases hrest
      refine ⟨js :: is.map fun j => [j], .cons hsplit ?_, fun traces => ?_⟩
      · rw [List.forall₂_map_right_iff, List.forall₂_same]
        exact fun j _ => splitsInto_self j
      · rw [List.forall₂_cons_left_iff]
        refine ⟨fun he => (by cases he), fun ⟨t, ts, ht, _⟩ => ?_⟩
        obtain ⟨g', he⟩ := (hcalls t).mpr ht
        cases he
    | ok a =>
      obtain ⟨calls, g₁⟩ := a
      obtain ⟨r₂, hr₂, rfl⟩ := Option.map_eq_some_iff.mp hrest
      obtain ⟨blocks, hblocks, htraces⟩ := ih (hready calls g₁ rfl) hr₂
      refine ⟨js :: blocks, .cons hsplit hblocks, fun traces => ?_⟩
      rw [List.forall₂_cons_left_iff]
      constructor
      · intro he
        cases r₂ with
        | error e => cases he
        | ok ts =>
          cases he
          exact ⟨calls, ts, (hcalls calls).mp ⟨g₁, rfl⟩, (htraces ts).mp rfl, rfl⟩
      · rintro ⟨t, ts, ht, hts, rfl⟩
        obtain ⟨g', he⟩ := (hcalls t).mpr ht
        cases he
        rw [(htraces ts).mpr hts]
        rfl

/-- **In a sequence of imports every block makes the calls that it makes alone**: the texts of the imports split into
texts of one block each, and the sequence returns exactly when each of them returns alone, with the same calls. -/
theorem imports_independent (is : List Import) (r : Except MemoryFault (List (List BlockCalls)))
    (h : hmonImports is .init = some r) : ∃ blocks, List.Forall₂ SplitsInto is blocks ∧
      ∀ traces, r = .ok traces ↔ List.Forall₂ (List.Forall₂ Alone) blocks traces :=
  hmonImports_alone init_ready h

/-- Two files: a block without events before one with an event, and a block that sets nothing but its events. -/
def exampleImports : List Import :=
  ["a\x7bWINDOW:=3;\x7d b\x7bEVSET:=E;\x7d", "c\x7bEVSET:=F;\x7d"].map
    fun text => ⟨fun _ => some Topo.machine, fun _ _ => [Topo.coreObj 0, Topo.coreObj 1], fun _ => some 1, {0, 1},
      text.toList⟩

theorem imports_independent_example : ∃ traces blocks, hmonImports exampleImports .init = some (.ok traces) ∧
    List.Forall₂ SplitsInto exampleImports blocks ∧ List.Forall₂ (List.Forall₂ Alone) blocks traces := by
  have hok : (hmonImports exampleImports .init).any Except.isOk = true := by decide +kernel
  obtain ⟨r, hr, hrun⟩ := Option.any_eq_true _ _ |>.mp hok
  cases r with
  | error e => cases hrun
  | ok traces =>
    obtain ⟨blocks, hsplit, hcalls⟩ := imports_independent exampleImports (.ok traces) hr
    exact ⟨traces, blocks, hr, hsplit, (hcalls traces).mp rfl⟩

end Hmon.Config
