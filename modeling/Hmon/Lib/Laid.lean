import Hmon.Lib.Lexer

/-!
# Texts laid out so that the scanner keeps the lexemes apart

* `Whole` : a text that is one lexeme; `whole_of_first` : the first rule that matches all of it takes it;
* `Kept` : no rule goes on over the text behind a lexeme; `best_append_kept` : there it is taken whole;
* `layOut` : words with gaps before them and at the end; `Laid` : the gaps are of some kind, and each word is kept apart
  from what follows it; `scan_layOut` : **the tokens of such a text are the tokens of its words**;
* `lexeme_whole` : every lexeme of a text is whole; `scan_reformat` : **the lexemes of any text, laid out so, have the
  tokens of the text**.
-/

namespace Hmon.Lib.Lexer
variable {α β : Type} {rs : List (Rule α β)} {r : Rule α β} {u w : List α} {c : α}

/-- The text `u` is one lexeme, which `r` takes. -/
structure Whole (rs : List (Rule α β)) (u : List α) (r : Rule α β) : Prop where
  ne : u ≠ []
  taken : best u rs = some (u.length, r)

/-- No match goes on behind `u` over the text `w`. -/
def Kept (rs : List (Rule α β)) (u w : List α) : Prop := ∀ q ∈ rs, ∀ n, Takes (u ++ w) q n → n ≤ u.length

/-- A text without tokens that leaves what follows as it is. -/
def Silent (rs : List (Rule α β)) (g : List α) : Prop := ∀ w, scan rs (g ++ w) = scan rs w

theorem scan_nil (rs : List (Rule α β)) : scan rs [] = [] := rfl

/-! ## Whole lexemes -/

theorem takes_self (h : u ∈ r.regex.lang) : Takes u r u.length := ⟨le_rfl, by rwa [List.take_length]⟩

/-- The first of the rules that match all of `u`. -/
theorem whole_of_first {pre post : List (Rule α β)} (hne : u ≠ []) (hu : u ∈ r.regex.lang)
    (hpre : ∀ q ∈ pre, u ∉ q.regex.lang) : Whole (pre ++ r :: post) u r := by
  refine ⟨hne, best_eq_some (takes_self hu) (fun m hm => hm.1) (fun q hq m hm => ?_) fun _ _ m hm => hm.1⟩
  -- a match of full length would be the whole text
  refine lt_of_le_of_ne hm.1 fun hlen => hpre q hq ?_
  have hlang := hm.2
  rwa [hlen, List.take_length] at hlang

/-- Only the rules that can start with the first letter matter. -/
theorem whole_of_filter {a : α} (h : Whole (rs.filter fun q => q.regex.first a) (a :: u) r) : Whole rs (a :: u) r :=
  ⟨h.ne, best_of_filter h.taken⟩

theorem scan_append_of_best (hu : u ≠ []) (h : best (u ++ w) rs = some (u.length, r)) :
    scan rs (u ++ w) = (r.action u).toList ++ scan rs w := by
  obtain ⟨n, hn⟩ : ∃ n, u.length = n + 1 := Nat.exists_eq_succ_of_ne_zero (mt List.length_eq_zero_iff.mp hu)
  rw [hn] at h
  rw [scan_eq h, ← hn, List.take_left, List.drop_left]

theorem scan_whole (h : Whole rs u r) : scan rs u = (r.action u).toList := by
  have hbest : best (u ++ []) rs = some (u.length, r) := by rw [List.append_nil]; exact h.taken
  have := scan_append_of_best h.ne hbest
  rwa [List.append_nil, scan_nil, List.append_nil] at this

/-- A lexeme is taken whole where it is kept apart. -/
theorem best_append_kept (h : Whole rs u r) (hk : Kept rs u w) : best (u ++ w) rs = some (u.length, r) := by
  obtain ⟨hmem, htakes, -⟩ := best_spec h.taken
  have htakes' : Takes (u ++ w) r u.length := by
    refine ⟨by simp, ?_⟩
    rw [List.take_left]
    have := htakes.2
    rwa [List.take_length] at this
  cases hb : best (u ++ w) rs with
  | none => exact absurd htakes' (best_none hb r hmem u.length)
  | some o =>
    obtain ⟨n, q⟩ := o
    obtain ⟨hq, ht, -⟩ := best_spec hb
    have := best_append hb (hk q hq n ht)
    rw [h.taken] at this
    exact this.symm

/-- A rule that takes more than `u` takes the next letter as well. -/
theorem kept_cons {a : α} {A T : List α}
    (h : ∀ q ∈ rs, q.regex.first a = true → q.regex.inner c = true → ∀ n, Takes (a :: A ++ c :: T) q n →
      n ≤ A.length + 1) :
    Kept rs (a :: A) (c :: T) := by
  intro q hq n hn
  by_cases hgo : q.regex.first a = true ∧ q.regex.inner c = true
  · exact h q hq hgo.1 hgo.2 n hn
  · rw [not_and, Bool.not_eq_true] at hgo
    exact takes_le hgo hn

/-- The longest matches decide. -/
theorem kept_iff {u w : List α} :
    Kept rs u w ↔ ∀ q ∈ rs, (q.regex.longest (u ++ w)).all (· ≤ u.length) = true := by
  refine forall₂_congr fun q _ => ?_
  cases hl : q.regex.longest (u ++ w) with
  | none => exact iff_of_true (fun n hn => absurd hn.2 (Regex.longest_none hl n)) rfl
  | some k =>
    obtain ⟨hk, hlang, hmax⟩ := Regex.longest_some hl
    rw [Option.all_some, decide_eq_true_eq]
    exact ⟨fun h => h k ⟨hk, hlang⟩, fun h n hn => (hmax n hn.1 hn.2).trans h⟩

instance decidableKept (rs : List (Rule α β)) (u w : List α) : Decidable (Kept rs u w) :=
  decidable_of_iff (rs.all fun q => (q.regex.longest (u ++ w)).all (· ≤ u.length)) (List.all_eq_true.trans kept_iff.symm)

/-! ## Laid out words -/

/-- Words behind their gaps, and a last gap. -/
def layOut : List (List α × List α) → List α → List α
  | [], last => last
  | (g, u) :: ps, last => g ++ (u ++ layOut ps last)

/-- The gaps are of the kind `G`, and each word is kept apart from what follows. -/
def Laid (rs : List (Rule α β)) (G : List α → Prop) : List (List α × List α) → List α → Prop
  | [], last => G last
  | (g, u) :: ps, last => G g ∧ Kept rs u (layOut ps last) ∧ Laid rs G ps last

variable {G : List α → Prop} {ps : List (List α × List α)} {last : List α}

def decideLaid [DecidablePred G] (rs : List (Rule α β)) :
    ∀ (ps : List (List α × List α)) (last : List α), Decidable (Laid rs G ps last)
  | [], last => inferInstanceAs (Decidable (G last))
  | (g, u) :: ps, last =>
    haveI := decideLaid rs ps last
    inferInstanceAs (Decidable (G g ∧ Kept rs u (layOut ps last) ∧ Laid rs G ps last))

instance [DecidablePred G] (rs : List (Rule α β)) (ps : List (List α × List α)) (last : List α) :
    Decidable (Laid rs G ps last) := decideLaid rs ps last

/-- **The tokens of laid out words are the tokens of the words.** -/
theorem scan_layOut (hG : ∀ g, G g → Silent rs g) (h : Laid rs G ps last) (hws : ∀ p ∈ ps, ∃ r, Whole rs p.2 r) :
    scan rs (layOut ps last) = (ps.map Prod.snd).flatMap (scan rs) := by
  induction ps with
  | nil =>
    have := hG last h []
    rwa [List.append_nil] at this
  | cons p ps ih =>
    obtain ⟨g, u⟩ := p
    obtain ⟨hg, hkept, hrest⟩ := h
    obtain ⟨⟨r, hu⟩, hws⟩ := List.forall_mem_cons.mp hws
    show scan rs (g ++ (u ++ layOut ps last)) = _
    rw [hG g hg, scan_append_of_best hu.ne (best_append_kept hu hkept), List.map_cons, List.flatMap_cons, scan_whole hu,
      ih hrest hws]

/-! ## The lexemes of a text -/

/-- Every lexeme of a text is one on its own. -/
theorem lexeme_whole {t : β} (h : (t, u) ∈ scan (rs.map keep) w) : ∃ r, Whole rs u r ∧ r.action u = some t := by
  unfold scan at h
  generalize w.length = fuel at h
  induction fuel generalizing w with
  | zero => cases h
  | succ fuel ih =>
    simp only [scanAux, best_keep] at h
    cases hb : best w rs with
    | none => rw [hb] at h; cases h
    | some o =>
      obtain ⟨n, r⟩ := o
      rw [hb] at h
      cases n with
      | zero => cases h
      | succ n =>
        rcases List.mem_append.mp h with h | h
        · obtain ⟨t', ht, heq⟩ := Option.map_eq_some_iff.mp (Option.mem_toList.mp h)
          cases heq
          have hn : n + 1 ≤ w.length := (best_spec hb).2.1.1
          have htake : (w.take (n + 1)).length = n + 1 := List.length_take_of_le hn
          refine ⟨r, ⟨fun hnil => ?_, ?_⟩, ht⟩
          · rw [hnil] at htake
            cases htake
          · rw [htake]
            exact best_append (u := w.take (n + 1)) (v := w.drop (n + 1))
              (by rw [List.take_append_drop]; exact hb) htake.ge
        · exact ih h

/-- **The lexemes of a text, laid out, have the tokens of the text.** -/
theorem scan_reformat (hG : ∀ g, G g → Silent rs g) (h : Laid rs G ps last)
    (hps : ps.map Prod.snd = (scan (rs.map keep) w).map Prod.snd) : scan rs (layOut ps last) = scan rs w := by
  have hwhole := fun (l : β × List α) (hl : l ∈ scan (rs.map keep) w) => lexeme_whole (t := l.1) (u := l.2) hl
  rw [scan_layOut hG h fun p hp => ?_, hps]
  · rw [← scan_keep rs w, List.flatMap_map, ← List.flatMap_singleton' (l := scan (rs.map keep) w |>.map Prod.fst),
      List.flatMap_map]
    refine List.flatMap_congr fun l hl => ?_
    obtain ⟨r, hr, hact⟩ := hwhole l hl
    rw [scan_whole hr, hact]
    rfl
  · have hmem : p.2 ∈ (scan (rs.map keep) w).map Prod.snd := hps ▸ List.mem_map_of_mem hp
    obtain ⟨l, hl, he⟩ := List.mem_map.mp hmem
    obtain ⟨r, hr, -⟩ := hwhole l hl
    exact ⟨r, he ▸ hr⟩

end Hmon.Lib.Lexer
