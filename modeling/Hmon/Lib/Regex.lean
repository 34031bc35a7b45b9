import Mathlib.Computability.Language

/-!
# Regular expressions over character classes, and longest matches

* `Regex α` : regular expressions whose letters are classes `α → Bool`; `lang` : the words that one matches;
* `deriv` : the derivative by a letter; `longest` : the length of the longest matched prefix;
* `longest_eq_some` : what `longest` computes, in terms of `lang`; `mem_iff_longest` : it decides membership;
* `first`, `occurs`, `inner` : the letters that a match can start with, contain, contain behind the first one;
* `longest_alt`, `longest_seq_cls`, … : the longest match of a composed expression.
-/

namespace Hmon.Lib

inductive Regex (α : Type)
  | none
  | eps
  | cls (p : α → Bool)
  | alt (r s : Regex α)
  | seq (r s : Regex α)
  | star (r : Regex α)

namespace Regex
variable {α : Type}

/-- `r?` -/
def opt (r : Regex α) : Regex α := alt r eps

/-- `r+` -/
def plus (r : Regex α) : Regex α := seq r (star r)

/-- One letter. -/
def chr [DecidableEq α] (a : α) : Regex α := cls fun b => decide (b = a)

/-- A fixed word. -/
def lit [DecidableEq α] : List α → Regex α
  | [] => eps
  | a :: as => seq (chr a) (lit as)

/-- The words that the expression matches. -/
def lang : Regex α → Language α
  | none => 0
  | eps => 1
  | cls p => {w | ∃ a, p a = true ∧ w = [a]}
  | alt r s => r.lang + s.lang
  | seq r s => r.lang * s.lang
  | star r => KStar.kstar r.lang

/-! ## Membership -/

variable {r s : Regex α} {w : List α}

theorem mem_none : w ∉ (none : Regex α).lang := Set.notMem_empty w

theorem mem_eps : w ∈ (eps : Regex α).lang ↔ w = [] := Iff.rfl

theorem mem_cls {p : α → Bool} : w ∈ (cls p).lang ↔ ∃ a, p a = true ∧ w = [a] := Iff.rfl

theorem mem_alt : w ∈ (alt r s).lang ↔ w ∈ r.lang ∨ w ∈ s.lang := Iff.rfl

theorem mem_seq : w ∈ (seq r s).lang ↔ ∃ u ∈ r.lang, ∃ v ∈ s.lang, w = u ++ v := by
  show w ∈ r.lang * s.lang ↔ _
  rw [Language.mem_mul]
  exact ⟨fun ⟨u, hu, v, hv, h⟩ => ⟨u, hu, v, hv, h.symm⟩, fun ⟨u, hu, v, hv, h⟩ => ⟨u, hu, v, hv, h.symm⟩⟩

theorem mem_opt : w ∈ (opt r).lang ↔ w = [] ∨ w ∈ r.lang := by
  unfold opt
  rw [mem_alt, mem_eps, or_comm]

theorem mem_chr [DecidableEq α] {a : α} : w ∈ (chr a).lang ↔ w = [a] := by
  unfold chr
  rw [mem_cls]
  simp

theorem mem_lit [DecidableEq α] {u : List α} : w ∈ (lit u).lang ↔ w = u := by
  induction u generalizing w with
  | nil => exact mem_eps
  | cons a u ih =>
    simp only [lit, mem_seq, mem_chr, ih]
    simp

theorem mem_star_cons {a : α} : a :: w ∈ (star r).lang ↔ ∃ u v, a :: u ∈ r.lang ∧ v ∈ (star r).lang ∧ w = u ++ v := by
  show a :: w ∈ KStar.kstar r.lang ↔ _
  constructor
  · intro h
    obtain ⟨ws, hw, hws⟩ := Language.mem_kstar_iff_exists_nonempty.mp h
    cases ws with
    | nil => cases hw
    | cons x xs =>
      obtain ⟨hx, hne⟩ := hws x List.mem_cons_self
      cases x with
      | nil => exact absurd rfl hne
      | cons b u =>
        obtain ⟨rfl, rfl⟩ := List.cons.inj hw
        exact ⟨u, xs.flatten, hx,
          Language.mem_kstar.mpr ⟨xs, rfl, fun y hy => (hws y (List.mem_cons_of_mem _ hy)).1⟩, rfl⟩
  · rintro ⟨u, v, hu, hv, rfl⟩
    obtain ⟨ws, rfl, hws⟩ := Language.mem_kstar.mp hv
    exact Language.mem_kstar.mpr ⟨(a :: u) :: ws, rfl, List.forall_mem_cons.mpr ⟨hu, hws⟩⟩

theorem nil_mem_star : [] ∈ (star r).lang := Language.nil_mem_kstar r.lang

theorem mem_star_cls {p : α → Bool} : w ∈ (star (cls p)).lang ↔ ∀ a ∈ w, p a = true := by
  induction w with
  | nil => simp [nil_mem_star]
  | cons a w ih =>
    rw [mem_star_cons, List.forall_mem_cons, ← ih]
    constructor
    · rintro ⟨u, v, ⟨b, hb, he⟩, hv, rfl⟩
      obtain ⟨rfl, rfl⟩ := List.cons.inj he
      exact ⟨hb, hv⟩
    · rintro ⟨ha, hw⟩
      exact ⟨[], w, ⟨a, ha, rfl⟩, hw, rfl⟩

theorem mem_plus_cls {p : α → Bool} : w ∈ (plus (cls p)).lang ↔ w ≠ [] ∧ ∀ a ∈ w, p a = true := by
  unfold plus
  rw [mem_seq]
  constructor
  · rintro ⟨-, ⟨a, ha, rfl⟩, v, hv, rfl⟩
    exact ⟨by simp, List.forall_mem_cons.mpr ⟨ha, mem_star_cls.mp hv⟩⟩
  · rintro ⟨hne, h⟩
    cases w with
    | nil => exact absurd rfl hne
    | cons a w =>
      obtain ⟨ha, hw⟩ := List.forall_mem_cons.mp h
      exact ⟨[a], ⟨a, ha, rfl⟩, w, mem_star_cls.mpr hw, rfl⟩

/-! ## Derivatives -/

def nullable : Regex α → Bool
  | none => false
  | eps => true
  | cls _ => false
  | alt r s => r.nullable || s.nullable
  | seq r s => r.nullable && s.nullable
  | star _ => true

theorem nullable_iff : r.nullable = true ↔ [] ∈ r.lang := by
  induction r with
  | none => exact iff_of_false Bool.false_ne_true mem_none
  | eps => exact iff_of_true rfl (mem_eps.mpr rfl)
  | cls p => exact iff_of_false Bool.false_ne_true fun ⟨a, _, h⟩ => absurd h (by simp)
  | alt r s ihr ihs => rw [nullable, Bool.or_eq_true, ihr, ihs, mem_alt]
  | seq r s ihr ihs =>
    rw [nullable, Bool.and_eq_true, ihr, ihs, mem_seq]
    constructor
    · exact fun ⟨hr, hs⟩ => ⟨[], hr, [], hs, rfl⟩
    · rintro ⟨u, hu, v, hv, h⟩
      obtain ⟨rfl, rfl⟩ := List.append_eq_nil_iff.mp h.symm
      exact ⟨hu, hv⟩
  | star r _ => exact iff_of_true rfl nil_mem_star

/-- `alt` and `seq` that drop the empty language and the empty word. -/
def mkAlt : Regex α → Regex α → Regex α
  | none, s => s
  | r, none => r
  | r, s => alt r s

def mkSeq : Regex α → Regex α → Regex α
  | none, _ => none
  | eps, s => s
  | r, s => seq r s

theorem mem_mkAlt : w ∈ (mkAlt r s).lang ↔ w ∈ r.lang ∨ w ∈ s.lang := by
  unfold mkAlt
  split
  · exact (or_iff_right mem_none).symm
  · exact (or_iff_left mem_none).symm
  · exact mem_alt

theorem mem_mkSeq : w ∈ (mkSeq r s).lang ↔ ∃ u ∈ r.lang, ∃ v ∈ s.lang, w = u ++ v := by
  unfold mkSeq
  split
  · exact iff_of_false mem_none fun ⟨u, hu, _⟩ => mem_none hu
  · constructor
    · exact fun h => ⟨[], mem_eps.mpr rfl, w, h, rfl⟩
    · rintro ⟨u, hu, v, hv, rfl⟩
      rwa [mem_eps.mp hu]
  · exact mem_seq

def deriv (a : α) : Regex α → Regex α
  | none => none
  | eps => none
  | cls p => if p a then eps else none
  | alt r s => mkAlt (deriv a r) (deriv a s)
  | seq r s => if r.nullable then mkAlt (mkSeq (deriv a r) s) (deriv a s) else mkSeq (deriv a r) s
  | star r => mkSeq (deriv a r) (star r)

theorem mem_deriv {a : α} : w ∈ (deriv a r).lang ↔ a :: w ∈ r.lang := by
  induction r generalizing w with
  | none => exact iff_of_false mem_none mem_none
  | eps => exact iff_of_false mem_none (by simp [mem_eps])
  | cls p =>
    unfold deriv
    split_ifs with h
    · rw [mem_eps, mem_cls]
      exact ⟨fun hw => ⟨a, h, by rw [hw]⟩, fun ⟨b, _, he⟩ => (List.cons.inj he).2⟩
    · refine iff_of_false mem_none ?_
      rintro ⟨b, hb, he⟩
      rw [← (List.cons.inj he).1] at hb
      exact h hb
  | alt r s ihr ihs => rw [deriv, mem_mkAlt, ihr, ihs, mem_alt]
  | seq r s ihr ihs =>
    have hseq : a :: w ∈ (seq r s).lang ↔
        (∃ u ∈ (deriv a r).lang, ∃ v ∈ s.lang, w = u ++ v) ∨ [] ∈ r.lang ∧ a :: w ∈ s.lang := by
      rw [mem_seq]
      constructor
      · rintro ⟨u, hu, v, hv, he⟩
        cases u with
        | nil => exact Or.inr ⟨hu, by rw [he]; exact hv⟩
        | cons b u =>
          obtain ⟨rfl, rfl⟩ := List.cons.inj he
          exact Or.inl ⟨u, ihr.mpr hu, v, hv, rfl⟩
      · rintro (⟨u, hu, v, hv, rfl⟩ | ⟨hn, hs⟩)
        · exact ⟨a :: u, ihr.mp hu, v, hv, rfl⟩
        · exact ⟨[], hn, a :: w, hs, rfl⟩
    rw [hseq, deriv]
    split_ifs with h
    · rw [mem_mkAlt, mem_mkSeq, ihs, and_iff_right (nullable_iff.mp h)]
    · rw [mem_mkSeq, or_iff_left fun hn => h (nullable_iff.mpr hn.1)]
  | star r ih =>
    rw [deriv, mem_mkSeq, mem_star_cons]
    exact ⟨fun ⟨u, hu, v, hv, he⟩ => ⟨u, v, ih.mp hu, hv, he⟩, fun ⟨u, v, hu, hv, he⟩ => ⟨u, ih.mpr hu, v, hv, he⟩⟩

/-! ## The longest match -/

/-- The length of the longest prefix that matches. -/
def longest (r : Regex α) : List α → Option Nat
  | [] => if r.nullable then some 0 else .none
  | a :: w =>
    match longest (deriv a r) w with
    | some n => some (n + 1)
    | .none => if r.nullable then some 0 else .none

theorem longest_none (h : longest r w = .none) : ∀ m, w.take m ∉ r.lang := by
  induction w generalizing r with
  | nil =>
    intro m hm
    rw [List.take_nil] at hm
    simp [longest, nullable_iff.mpr hm] at h
  | cons a w ih =>
    simp only [longest] at h
    intro m hm
    split at h
    · cases h
    · rename_i hd
      split_ifs at h with hn
      cases m with
      | zero => exact hn (nullable_iff.mpr hm)
      | succ m => exact ih hd m (mem_deriv.mpr hm)

theorem longest_some {n : Nat} (h : longest r w = some n) :
    n ≤ w.length ∧ w.take n ∈ r.lang ∧ ∀ m ≤ w.length, w.take m ∈ r.lang → m ≤ n := by
  induction w generalizing r n with
  | nil =>
    simp only [longest] at h
    split_ifs at h with hn
    cases h
    exact ⟨le_rfl, nullable_iff.mp hn, fun m hm _ => hm⟩
  | cons a w ih =>
    simp only [longest] at h
    split at h
    · rename_i k hk
      cases h
      obtain ⟨hle, hmem, hmax⟩ := ih hk
      refine ⟨Nat.succ_le_succ hle, mem_deriv.mp hmem, fun m hm hw => ?_⟩
      cases m with
      | zero => exact Nat.zero_le _
      | succ m => exact Nat.succ_le_succ (hmax m (Nat.le_of_succ_le_succ hm) (mem_deriv.mpr hw))
    · rename_i hd
      split_ifs at h with hn
      cases h
      refine ⟨Nat.zero_le _, nullable_iff.mp hn, fun m hm hw => ?_⟩
      cases m with
      | zero => exact le_rfl
      | succ m => exact absurd (mem_deriv.mpr hw) (longest_none hd m)

/-- `longest` finds the longest match. -/
theorem longest_eq_some {n : Nat} (hn : n ≤ w.length) (hw : w.take n ∈ r.lang)
    (hmax : ∀ m ≤ w.length, w.take m ∈ r.lang → m ≤ n) : longest r w = some n := by
  cases h : longest r w with
  | none => exact absurd hw (longest_none h n)
  | some k =>
    obtain ⟨hk, hmem, hkmax⟩ := longest_some h
    exact congrArg some (Nat.le_antisymm (hmax k hk hmem) (hkmax n hn hw))

theorem longest_eq_some_iff {n : Nat} : longest r w = some n ↔ ∃ u v, w = u ++ v ∧ u.length = n ∧ u ∈ r.lang ∧
    ∀ u' v', w = u' ++ v' → u' ∈ r.lang → u'.length ≤ n := by
  constructor
  · intro h
    obtain ⟨hle, hmem, hmax⟩ := longest_some h
    refine ⟨w.take n, w.drop n, (List.take_append_drop n w).symm, List.length_take_of_le hle, hmem, ?_⟩
    rintro u v rfl hu
    refine hmax u.length (by simp) ?_
    rwa [List.take_left]
  · rintro ⟨u, v, rfl, rfl, hu, hmax⟩
    refine longest_eq_some (by simp) (by rwa [List.take_left]) fun m hm hw => ?_
    have := hmax _ _ (List.take_append_drop m (u ++ v)).symm hw
    rwa [List.length_take_of_le hm] at this

theorem longest_eq_none_iff : longest r w = .none ↔ ∀ u v, w = u ++ v → u ∉ r.lang := by
  constructor
  · rintro h u v rfl hu
    have := longest_none h u.length
    rw [List.take_left] at this
    exact this hu
  · intro h
    cases hl : longest r w with
    | none => rfl
    | some n =>
      obtain ⟨u, v, he, -, hu, -⟩ := longest_eq_some_iff.mp hl
      exact absurd hu (h u v he)

theorem mem_iff_longest : w ∈ r.lang ↔ longest r w = some w.length := by
  constructor
  · intro h
    exact longest_eq_some_iff.mpr ⟨w, [], (List.append_nil w).symm, rfl, h, fun u v he _ => by rw [he]; simp⟩
  · intro h
    obtain ⟨u, v, he, hlen, hu, -⟩ := longest_eq_some_iff.mp h
    have hv : v = [] := by
      have := congrArg List.length he
      rw [List.length_append, hlen] at this
      exact List.length_eq_zero_iff.mp (by omega)
    rw [he, hv, List.append_nil]
    exact hu

instance decidableMemLang (r : Regex α) (w : List α) : Decidable (w ∈ r.lang) :=
  decidable_of_iff (longest r w = some w.length) mem_iff_longest.symm

theorem longest_congr (h : ∀ u, u ∈ r.lang ↔ u ∈ s.lang) (w : List α) : longest r w = longest s w := by
  cases hl : longest s w with
  | none =>
    rw [longest_eq_none_iff] at hl ⊢
    exact fun u v he hu => hl u v he ((h u).mp hu)
  | some n =>
    obtain ⟨u, v, he, hn, hu, hmax⟩ := longest_eq_some_iff.mp hl
    exact longest_eq_some_iff.mpr ⟨u, v, he, hn, (h u).mpr hu, fun u' v' he' hu' => hmax u' v' he' ((h u').mp hu')⟩

/-! ## The first letter of a match -/

/-- Some nonempty match may start with `a`. -/
def first (a : α) : Regex α → Bool
  | none => false
  | eps => false
  | cls p => p a
  | alt r s => r.first a || s.first a
  | seq r s => r.first a || r.nullable && s.first a
  | star r => r.first a

theorem first_of_mem {a : α} (h : a :: w ∈ r.lang) : r.first a = true := by
  induction r generalizing w with
  | none => exact absurd h mem_none
  | eps => cases h
  | cls p =>
    obtain ⟨b, hb, he⟩ := h
    rw [first, (List.cons.inj he).1, hb]
  | alt r s ihr ihs =>
    rw [first, Bool.or_eq_true]
    exact (mem_alt.mp h).imp ihr ihs
  | seq r s ihr ihs =>
    obtain ⟨u, hu, v, hv, he⟩ := mem_seq.mp h
    rw [first, Bool.or_eq_true, Bool.and_eq_true]
    cases u with
    | nil =>
      rw [List.nil_append] at he
      rw [← he] at hv
      exact Or.inr ⟨nullable_iff.mpr hu, ihs hv⟩
    | cons b u =>
      obtain ⟨rfl, rfl⟩ := List.cons.inj he
      exact Or.inl (ihr hu)
  | star r ih =>
    obtain ⟨u, v, hu, -, -⟩ := mem_star_cons.mp h
    exact ih hu

/-- Some match may contain `a`. -/
def occurs (a : α) : Regex α → Bool
  | none => false
  | eps => false
  | cls p => p a
  | alt r s => r.occurs a || s.occurs a
  | seq r s => r.occurs a || s.occurs a
  | star r => r.occurs a

theorem occurs_of_mem {a : α} (h : w ∈ r.lang) (ha : a ∈ w) : r.occurs a = true := by
  induction r generalizing w with
  | none => exact absurd h mem_none
  | eps =>
    rw [mem_eps.mp h] at ha
    cases ha
  | cls p =>
    obtain ⟨b, hb, rfl⟩ := h
    rw [List.mem_singleton.mp ha]
    exact hb
  | alt r s ihr ihs =>
    rw [occurs, Bool.or_eq_true]
    exact (mem_alt.mp h).imp (fun h => ihr h ha) fun h => ihs h ha
  | seq r s ihr ihs =>
    obtain ⟨u, hu, v, hv, rfl⟩ := mem_seq.mp h
    rw [occurs, Bool.or_eq_true]
    exact (List.mem_append.mp ha).imp (ihr hu) (ihs hv)
  | star r ih =>
    obtain ⟨ws, rfl, hws⟩ := Language.mem_kstar.mp (show w ∈ KStar.kstar r.lang from h)
    obtain ⟨x, hx, hax⟩ := List.mem_flatten.mp ha
    exact ih (hws x hx) hax

/-- Some match may contain `a` behind its first letter. -/
def inner (a : α) : Regex α → Bool
  | none => false
  | eps => false
  | cls _ => false
  | alt r s => r.inner a || s.inner a
  | seq r s => r.inner a || s.occurs a
  | star r => r.occurs a

theorem inner_of_mem {a b : α} (h : b :: w ∈ r.lang) (ha : a ∈ w) : r.inner a = true := by
  induction r generalizing b w with
  | none => exact absurd h mem_none
  | eps => cases h
  | cls p =>
    obtain ⟨c, -, he⟩ := h
    obtain ⟨-, rfl⟩ := List.cons.inj he
    cases ha
  | alt r s ihr ihs =>
    rw [inner, Bool.or_eq_true]
    exact (mem_alt.mp h).imp (fun h => ihr h ha) fun h => ihs h ha
  | seq r s ihr _ =>
    obtain ⟨u, hu, v, hv, he⟩ := mem_seq.mp h
    rw [inner, Bool.or_eq_true]
    cases u with
    | nil =>
      have hv' : b :: w ∈ s.lang := by rwa [he]
      exact Or.inr (occurs_of_mem hv' (List.mem_cons_of_mem _ ha))
    | cons c u =>
      obtain ⟨rfl, rfl⟩ := List.cons.inj he
      exact (List.mem_append.mp ha).imp (ihr hu) (occurs_of_mem hv)
  | star r _ => exact occurs_of_mem (r := star r) h (List.mem_cons_of_mem _ ha)

/-! ## The longest match of composed expressions -/

/-- The longer of two matches. -/
def longer : Option Nat → Option Nat → Option Nat
  | some m, some n => some (if m ≤ n then n else m)
  | some m, .none => some m
  | .none, o => o

theorem longest_alt : longest (alt r s) w = longer (longest r w) (longest s w) := by
  cases hr : longest r w with
  | none =>
    refine Eq.trans ?_ rfl
    cases hs : longest s w with
    | none =>
      rw [longest_eq_none_iff] at hr hs
      exact longest_eq_none_iff.mpr fun u v he hu => hu.elim (hr u v he) (hs u v he)
    | some n =>
      rw [longest_eq_none_iff] at hr
      obtain ⟨u, v, he, hn, hu, hmax⟩ := longest_eq_some_iff.mp hs
      exact longest_eq_some_iff.mpr ⟨u, v, he, hn, Or.inr hu, fun u' v' he' hu' =>
        hu'.elim (fun h => absurd h (hr u' v' he')) (hmax u' v' he')⟩
  | some m =>
    obtain ⟨u, v, he, hm, hu, hmax⟩ := longest_eq_some_iff.mp hr
    cases hs : longest s w with
    | none =>
      rw [longest_eq_none_iff] at hs
      exact longest_eq_some_iff.mpr ⟨u, v, he, hm, Or.inl hu, fun u' v' he' hu' =>
        hu'.elim (hmax u' v' he') fun h => absurd h (hs u' v' he')⟩
    | some n =>
      obtain ⟨x, y, hxy, hn, hx, hmax'⟩ := longest_eq_some_iff.mp hs
      simp only [longer]
      split_ifs with hmn
      · exact longest_eq_some_iff.mpr ⟨x, y, hxy, hn, Or.inr hx, fun u' v' he' hu' =>
          hu'.elim (fun h => (hmax u' v' he' h).trans hmn) (hmax' u' v' he')⟩
      · exact longest_eq_some_iff.mpr ⟨u, v, he, hm, Or.inl hu, fun u' v' he' hu' =>
          hu'.elim (hmax u' v' he') fun h => (hmax' u' v' he' h).trans (Nat.le_of_not_le hmn)⟩

theorem longest_eps : longest (eps : Regex α) w = some 0 :=
  longest_eq_some_iff.mpr ⟨[], w, rfl, rfl, rfl, fun u _ _ hu => by rw [mem_eps.mp hu]; rfl⟩

theorem longest_opt : longest (opt r) w = some ((longest r w).getD 0) := by
  unfold opt
  rw [longest_alt, longest_eps]
  cases longest r w with
  | none => rfl
  | some n =>
    simp only [longer, Option.getD_some]
    split_ifs with h
    · rw [Nat.le_zero.mp h]
    · rfl

theorem longest_seq_assoc {t : Regex α} : longest (seq (seq r s) t) w = longest (seq r (seq s t)) w := by
  refine longest_congr (fun u => ?_) w
  show u ∈ r.lang * s.lang * t.lang ↔ u ∈ r.lang * (s.lang * t.lang)
  rw [mul_assoc]

theorem longest_seq_opt : longest (seq (opt r) s) w = longer (longest (seq r s) w) (longest s w) := by
  rw [← longest_alt]
  refine longest_congr (fun u => ?_) w
  show u ∈ (r.lang + 1) * s.lang ↔ u ∈ r.lang * s.lang + s.lang
  rw [add_mul, one_mul]

theorem longest_seq_cls {p : α → Bool} {a : α} :
    longest (seq (cls p) r) (a :: w) = if p a then (longest r w).map (· + 1) else .none := by
  split_ifs with ha
  · cases hl : longest r w with
    | none =>
      rw [longest_eq_none_iff] at hl
      refine longest_eq_none_iff.mpr fun u v he hu => ?_
      obtain ⟨x, ⟨b, -, rfl⟩, y, hy, rfl⟩ := mem_seq.mp hu
      obtain ⟨-, rfl⟩ := List.cons.inj he
      exact hl y v rfl hy
    | some n =>
      obtain ⟨u, v, rfl, rfl, hu, hmax⟩ := longest_eq_some_iff.mp hl
      refine longest_eq_some_iff.mpr ⟨a :: u, v, rfl, rfl, mem_seq.mpr ⟨[a], ⟨a, ha, rfl⟩, u, hu, rfl⟩, ?_⟩
      intro u' v' he hu'
      obtain ⟨x, ⟨b, -, rfl⟩, y, hy, rfl⟩ := mem_seq.mp hu'
      obtain ⟨-, he⟩ := List.cons.inj he
      exact Nat.succ_le_succ (hmax y v' he hy)
  · refine longest_eq_none_iff.mpr fun u v he hu => ?_
    obtain ⟨x, ⟨b, hb, rfl⟩, y, -, rfl⟩ := mem_seq.mp hu
    obtain ⟨rfl, -⟩ := List.cons.inj he
    exact ha hb

theorem longest_seq_cls_nil {p : α → Bool} : longest (seq (cls p) r) [] = .none := by
  refine longest_eq_none_iff.mpr fun u v he hu => ?_
  obtain ⟨x, ⟨b, -, rfl⟩, y, -, rfl⟩ := mem_seq.mp hu
  cases he

/-- The text does not go on with a letter of `p`. -/
def Stops (p : α → Bool) (w : List α) : Prop := ∀ a ∈ w.head?, p a = false

/-- A run of `p` at the head of a text. -/
theorem run_split {p : α → Bool} {ds T u v : List α} (hds : ∀ a ∈ ds, p a = true) (hu : ∀ a ∈ u, p a = true)
    (hT : Stops p T) (h : ds ++ T = u ++ v) : ∃ es, ds = u ++ es ∧ v = es ++ T := by
  rcases List.append_eq_append_iff.mp h with ⟨es, rfl, rfl⟩ | ⟨es, rfl, rfl⟩
  · cases es with
    | nil => exact ⟨[], by simp, by simp⟩
    | cons a es =>
      have ha := hu a (by simp)
      rw [hT a (by simp)] at ha
      cases ha
  · exact ⟨es, rfl, rfl⟩

/-- A run of `p` and then an expression that cannot start with a letter of `p`. -/
theorem longest_seq_star {p : α → Bool} {ds T : List α} (hds : ∀ a ∈ ds, p a = true) (hT : Stops p T)
    (hr : ∀ a, p a = true → r.first a = false) (hn : [] ∈ r.lang) :
    longest (seq (star (cls p)) r) (ds ++ T) = (longest r T).map (· + ds.length) := by
  cases hl : longest r T with
  | none => exact absurd hn (longest_eq_none_iff.mp hl [] T rfl)
  | some n =>
    obtain ⟨u, v, rfl, rfl, hu, hmax⟩ := longest_eq_some_iff.mp hl
    refine longest_eq_some_iff.mpr ⟨ds ++ u, v, (List.append_assoc ..).symm, by rw [List.length_append, Nat.add_comm],
      mem_seq.mpr ⟨ds, mem_star_cls.mpr hds, u, hu, rfl⟩, ?_⟩
    intro u' v' he hu'
    obtain ⟨x, hx, y, hy, rfl⟩ := mem_seq.mp hu'
    rw [List.append_assoc x] at he
    obtain ⟨es, rfl, hes⟩ := run_split hds (mem_star_cls.mp hx) hT he
    show (x ++ y).length ≤ u.length + (x ++ es).length
    rw [List.length_append, List.length_append]
    cases es with
    | nil =>
      have := hmax y v' hes.symm hy
      exact (Nat.add_comm ..).trans_le (Nat.add_le_add_right this x.length)
    | cons a es =>
      cases y with
      | nil =>
        rw [List.length_nil]
        omega
      | cons b y =>
        -- the rest of the match would start inside the run
        obtain ⟨rfl, -⟩ := List.cons.inj hes
        have hb := hr b (hds b (by simp))
        rw [first_of_mem hy] at hb
        cases hb

theorem longest_seq_eps : longest (seq r eps) w = longest r w := by
  refine longest_congr (fun u => ?_) w
  show u ∈ r.lang * 1 ↔ u ∈ r.lang
  rw [mul_one]

/-- A nonempty run of `p`, then an expression that cannot start with a letter of `p`. -/
theorem longest_seq_plus {p : α → Bool} {ds T : List α} (hne : ds ≠ []) (hds : ∀ a ∈ ds, p a = true) (hT : Stops p T)
    (hr : ∀ a, p a = true → r.first a = false) (hn : [] ∈ r.lang) :
    longest (seq (plus (cls p)) r) (ds ++ T) = (longest r T).map (· + ds.length) := by
  cases ds with
  | nil => exact absurd rfl hne
  | cons d ds =>
    obtain ⟨hd, hds⟩ := List.forall_mem_cons.mp hds
    unfold plus
    rw [longest_seq_assoc, List.cons_append, longest_seq_cls, if_pos hd, longest_seq_star hds hT hr hn, Option.map_map]
    rfl

theorem longest_seq_plus_none {p : α → Bool} (hw : Stops p w) : longest (seq (plus (cls p)) r) w = .none := by
  unfold plus
  rw [longest_seq_assoc]
  cases w with
  | nil => exact longest_seq_cls_nil
  | cons a w => rw [longest_seq_cls, hw a rfl, if_neg Bool.false_ne_true]

end Regex
end Hmon.Lib
