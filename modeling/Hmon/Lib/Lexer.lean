import Hmon.Lib.Regex

/-!
# Scanners: the longest match, the first rule on ties

* `Rule` : a regular expression with its action; `best` : the rule that takes the next lexeme, with its length;
* `best_eq_some` : the rule that matches longest and first; `best_of_filter` : only the rules that can start with the
  first letter matter; `best_spec` : what `best` returns;
* `scan` : the tokens of a text; `scan_eq` : one lexeme of it; `mem_scan` : where a token comes from; `scan_keep` : the
  tokens with their lexemes; `scan_split` : tokens can be split where the text can.
-/

namespace Hmon.Lib

/-- A rule of a scanner; its action may return no token. -/
structure Rule (α β : Type) where
  regex : Regex α
  action : List α → Option β

namespace Lexer
variable {α β : Type} {w : List α} {rs : List (Rule α β)} {r : Rule α β} {n : Nat}

/-- The longest match among the rules, the first of them on a tie. -/
def best (w : List α) : List (Rule α β) → Option (Nat × Rule α β)
  | [] => none
  | r :: rs =>
    match r.regex.longest w, best w rs with
    | some n, some (m, r') => if m ≤ n then some (n, r) else some (m, r')
    | some n, none => some (n, r)
    | none, o => o

/-- `r` matches a prefix of length `n` of `w`. -/
def Takes (w : List α) (r : Rule α β) (n : Nat) : Prop := n ≤ w.length ∧ w.take n ∈ r.regex.lang

theorem best_none (h : best w rs = none) : ∀ r ∈ rs, ∀ n, ¬ Takes w r n := by
  induction rs with
  | nil => simp
  | cons r rs ih =>
    simp only [best] at h
    split at h
    · split_ifs at h
    · cases h
    · rename_i hl
      exact List.forall_mem_cons.mpr ⟨fun n hn => Regex.longest_none hl n hn.2, ih h⟩

/-- What `best` returns is a longest match. -/
theorem best_spec (h : best w rs = some (n, r)) : r ∈ rs ∧ Takes w r n ∧ ∀ r' ∈ rs, ∀ m, Takes w r' m → m ≤ n := by
  induction rs generalizing n r with
  | nil => cases h
  | cons q rs ih =>
    simp only [best] at h
    split at h
    · rename_i k m r' hk hb
      obtain ⟨hmem, htakes, hmax⟩ := ih hb
      obtain ⟨hle, hlang, hkmax⟩ := Regex.longest_some hk
      split_ifs at h with hmk
      · cases h
        exact ⟨List.mem_cons_self, ⟨hle, hlang⟩, List.forall_mem_cons.mpr ⟨fun j hj => hkmax j hj.1 hj.2,
          fun r₁ hr₁ j hj => (hmax r₁ hr₁ j hj).trans hmk⟩⟩
      · cases h
        exact ⟨List.mem_cons_of_mem _ hmem, htakes, List.forall_mem_cons.mpr
          ⟨fun j hj => (hkmax j hj.1 hj.2).trans (Nat.le_of_not_le hmk), hmax⟩⟩
    · rename_i k hk hb
      obtain ⟨hle, hlang, hkmax⟩ := Regex.longest_some hk
      cases h
      exact ⟨List.mem_cons_self, ⟨hle, hlang⟩, List.forall_mem_cons.mpr ⟨fun j hj => hkmax j hj.1 hj.2,
        fun r₁ hr₁ j hj => absurd hj (best_none hb r₁ hr₁ j)⟩⟩
    · rename_i hl
      obtain ⟨hmem, htakes, hmax⟩ := ih h
      exact ⟨List.mem_cons_of_mem _ hmem, htakes, List.forall_mem_cons.mpr
        ⟨fun j hj => absurd hj.2 (Regex.longest_none hl j), hmax⟩⟩

theorem best_cons_of_lt {q : Rule α β} (h : best w rs = some (n, r)) (hq : ∀ m, Takes w q m → m < n) :
    best w (q :: rs) = some (n, r) := by
  simp only [best, h]
  cases hl : q.regex.longest w with
  | none => rfl
  | some k =>
    obtain ⟨hk, hlang, -⟩ := Regex.longest_some hl
    exact if_neg (not_le.mpr (hq k ⟨hk, hlang⟩))

/-- The rule `r` takes the next lexeme: it matches longer than the rules before it and as long as those after it. -/
theorem best_eq_some {pre post : List (Rule α β)} (hr : Takes w r n) (hmax : ∀ m, Takes w r m → m ≤ n)
    (hpre : ∀ q ∈ pre, ∀ m, Takes w q m → m < n) (hpost : ∀ q ∈ post, ∀ m, Takes w q m → m ≤ n) :
    best w (pre ++ r :: post) = some (n, r) := by
  induction pre with
  | nil =>
    have hl : r.regex.longest w = some n :=
      Regex.longest_eq_some hr.1 hr.2 fun m hm hw => hmax m ⟨hm, hw⟩
    simp only [List.nil_append, best, hl]
    cases hb : best w post with
    | none => rfl
    | some o =>
      obtain ⟨m, q⟩ := o
      obtain ⟨hq, ht, -⟩ := best_spec hb
      exact if_pos (hpost q hq m ht)
  | cons q pre ih =>
    obtain ⟨hq, hpre⟩ := List.forall_mem_cons.mp hpre
    exact best_cons_of_lt (ih hpre) hq

/-- A rule that cannot start with the first letter takes at most the empty word. -/
theorem takes_of_not_first {a : α} (h : r.regex.first a = false) {m : Nat} (ht : Takes (a :: w) r m) : m = 0 := by
  cases m with
  | zero => rfl
  | succ m =>
    have := Regex.first_of_mem ht.2
    rw [h] at this
    cases this

/-- Only the rules that can start with the first letter take a nonempty lexeme. -/
theorem best_of_filter {a : α} (h : best (a :: w) (rs.filter fun q => q.regex.first a) = some (n + 1, r)) :
    best (a :: w) rs = some (n + 1, r) := by
  induction rs generalizing n r with
  | nil => exact h
  | cons q rs ih =>
    rw [List.filter_cons] at h
    split_ifs at h with hq
    · simp only [best] at h ⊢
      cases hl : q.regex.longest (a :: w) with
      | none =>
        rw [hl] at h
        exact ih h
      | some k =>
        rw [hl] at h
        cases hb : best (a :: w) (rs.filter fun q => q.regex.first a) with
        | some o =>
          obtain ⟨m, q'⟩ := o
          cases m with
          | succ m =>
            rw [hb] at h
            rw [ih hb]
            exact h
          | zero =>
            -- the others match the empty word at most
            rw [hb] at h
            simp only [Nat.zero_le, if_true] at h
            cases h
            cases hb' : best (a :: w) rs with
            | none => rfl
            | some o =>
              obtain ⟨m, q''⟩ := o
              have hm : m = 0 := by
                obtain ⟨hmem, ht, -⟩ := best_spec hb'
                by_cases hf : q''.regex.first a = true
                · exact Nat.le_zero.mp ((best_spec hb).2.2 q'' (List.mem_filter.mpr ⟨hmem, hf⟩) m ht)
                · exact takes_of_not_first (Bool.not_eq_true _ ▸ hf) ht
              subst hm
              rfl
        | none =>
          rw [hb] at h
          cases h
          cases hb' : best (a :: w) rs with
          | none => rfl
          | some o =>
            obtain ⟨m, q''⟩ := o
            obtain ⟨hmem, ht, -⟩ := best_spec hb'
            have hf : q''.regex.first a = false := by
              by_contra hf
              rw [Bool.not_eq_false] at hf
              exact best_none hb q'' (List.mem_filter.mpr ⟨hmem, hf⟩) m ht
            have hm := takes_of_not_first hf ht
            subst hm
            rfl
    · rw [Bool.not_eq_true] at hq
      exact best_cons_of_lt (ih h) fun m hm => by rw [takes_of_not_first hq hm]; exact Nat.succ_pos n

/-- A rule that cannot contain `c` behind a first letter takes nothing beyond it. -/
theorem takes_le {a c : α} {A T : List α} (h : r.regex.first a = true → r.regex.inner c = false) {m : Nat}
    (ht : Takes (a :: A ++ c :: T) r m) : m ≤ A.length + 1 := by
  by_contra hm
  obtain ⟨k, rfl⟩ : ∃ k, m = A.length + 2 + k := ⟨m - (A.length + 2), by omega⟩
  have htake : (a :: A ++ c :: T).take (A.length + 2 + k) = a :: (A ++ c :: T.take k) := by
    rw [show A.length + 2 + k = (A.length + (1 + k)) + 1 by omega, List.cons_append, List.take_succ_cons,
      List.take_length_add_append, Nat.add_comm 1 k, List.take_succ_cons]
  have hmem : a :: (A ++ c :: T.take k) ∈ r.regex.lang := htake ▸ ht.2
  have hinner := Regex.inner_of_mem hmem (by simp : c ∈ A ++ c :: T.take k)
  rw [h (Regex.first_of_mem hmem)] at hinner
  cases hinner

/-! ## Scanning -/

def scanAux (rs : List (Rule α β)) : Nat → List α → List β
  | 0, _ => []
  | fuel + 1, w =>
    match best w rs with
    | some (n + 1, r) => (r.action (w.take (n + 1))).toList ++ scanAux rs fuel (w.drop (n + 1))
    | _ => []

/-- The tokens of `w`. Each lexeme is nonempty, so `w.length` rounds read the whole text. -/
def scan (rs : List (Rule α β)) (w : List α) : List β := scanAux rs w.length w

theorem scanAux_eq {fuel : Nat} (h : w.length ≤ fuel) : scanAux rs fuel w = scan rs w := by
  unfold scan
  generalize hk : w.length = k
  rw [hk] at h
  induction k using Nat.strongRecOn generalizing w fuel with
  | ind k ih =>
    cases k with
    | zero =>
      have hw : w = [] := List.length_eq_zero_iff.mp hk
      subst hw
      cases fuel with
      | zero => rfl
      | succ fuel =>
        simp only [scanAux]
        split
        · rename_i n r hb
          exact absurd (best_spec hb).2.1.1 (Nat.not_succ_le_zero n)
        · rfl
    | succ k =>
      obtain ⟨fuel, rfl⟩ : ∃ f, fuel = f + 1 := ⟨fuel - 1, by omega⟩
      simp only [scanAux]
      split
      · rename_i n r hb
        have hlen : (w.drop (n + 1)).length = k - n := by
          rw [List.length_drop]
          omega
        rw [ih (k - n) (by omega) (show k - n ≤ fuel by omega) hlen,
          ih (k - n) (by omega) (show k - n ≤ k by omega) hlen]
      · rfl

/-- One lexeme. -/
theorem scan_eq (h : best w rs = some (n + 1, r)) :
    scan rs w = (r.action (w.take (n + 1))).toList ++ scan rs (w.drop (n + 1)) := by
  have hn : n + 1 ≤ w.length := (best_spec h).2.1.1
  obtain ⟨k, hk⟩ : ∃ k, w.length = k + 1 := ⟨w.length - 1, by omega⟩
  have hdrop : (w.drop (n + 1)).length ≤ k := by
    rw [List.length_drop]
    omega
  rw [scan, hk]
  simp only [scanAux, h]
  rw [scanAux_eq hdrop]

/-- Every token comes from a lexeme of a rule. -/
theorem mem_scan {t : β} (h : t ∈ scan rs w) : ∃ r ∈ rs, ∃ u ∈ r.regex.lang, r.action u = some t := by
  unfold scan at h
  generalize w.length = fuel at h
  induction fuel generalizing w with
  | zero => cases h
  | succ fuel ih =>
    simp only [scanAux] at h
    split at h
    · rename_i n r hb
      obtain ⟨hr, ht, -⟩ := best_spec hb
      rcases List.mem_append.mp h with h | h
      · exact ⟨r, hr, _, ht.2, Option.mem_toList.mp h⟩
      · exact ih h
    · cases h

/-- The rule with the lexeme beside the token. -/
def keep (r : Rule α β) : Rule α (β × List α) := ⟨r.regex, fun u => (r.action u).map fun t => (t, u)⟩

theorem best_keep (w : List α) (rs : List (Rule α β)) :
    best w (rs.map keep) = (best w rs).map fun o => (o.1, keep o.2) := by
  induction rs with
  | nil => rfl
  | cons r rs ih =>
    simp only [List.map_cons, best, ih, show (keep r).regex = r.regex from rfl]
    cases r.regex.longest w with
    | none => rfl
    | some n =>
      cases best w rs with
      | none => rfl
      | some o =>
        simp only [Option.map_some]
        split_ifs <;> rfl

/-- The tokens are the same with and without the lexemes. -/
theorem scan_keep (rs : List (Rule α β)) (w : List α) : (scan (rs.map keep) w).map Prod.fst = scan rs w := by
  unfold scan
  generalize w.length = fuel
  induction fuel generalizing w with
  | zero => rfl
  | succ fuel ih =>
    simp only [scanAux, best_keep]
    cases best w rs with
    | none => rfl
    | some o =>
      obtain ⟨n, r⟩ := o
      cases n with
      | zero => rfl
      | succ n =>
        simp only [Option.map_some, List.map_append, ih]
        cases hact : r.action (w.take (n + 1)) <;> simp [keep, hact]

/-! ## Scanning a part of a text -/

/-- The longest match of a regular expression fits the shorter text, or is longer than it. -/
theorem longest_append {u v : List α} {k : Nat} {e : Regex α} (h : e.longest (u ++ v) = some k) (hk : k ≤ u.length) :
    e.longest u = some k := by
  obtain ⟨-, hlang, hmax⟩ := Regex.longest_some h
  rw [List.take_append_of_le_length hk] at hlang
  refine Regex.longest_eq_some hk hlang fun m hm hw => hmax m (by rw [List.length_append]; omega) ?_
  rwa [List.take_append_of_le_length hm]

theorem longest_append_none {u v : List α} {e : Regex α} (h : e.longest (u ++ v) = none) : e.longest u = none := by
  cases hl : e.longest u with
  | none => rfl
  | some k =>
    obtain ⟨hk, hlang, -⟩ := Regex.longest_some hl
    exact absurd (by rwa [List.take_append_of_le_length hk]) (Regex.longest_none h k)

theorem best_append_none {u v : List α} (h : best (u ++ v) rs = none) : best u rs = none := by
  cases hb : best u rs with
  | none => rfl
  | some o =>
    obtain ⟨k, q⟩ := o
    obtain ⟨hq, ⟨hk, hlang⟩, -⟩ := best_spec hb
    refine absurd ⟨by rw [List.length_append]; omega, ?_⟩ (best_none h q hq k)
    rwa [List.take_append_of_le_length hk]

/-- What takes the next lexeme also takes it when the text ends behind it. -/
theorem best_append {u v : List α} (h : best (u ++ v) rs = some (n, r)) (hn : n ≤ u.length) :
    best u rs = some (n, r) := by
  induction rs generalizing n r with
  | nil => cases h
  | cons q rs ih =>
    simp only [best] at h ⊢
    cases hl : q.regex.longest (u ++ v) with
    | none =>
      rw [hl] at h
      rw [longest_append_none hl]
      exact ih h hn
    | some k =>
      rw [hl] at h
      cases hb : best (u ++ v) rs with
      | none =>
        rw [hb] at h
        cases h
        rw [longest_append hl hn, best_append_none hb]
      | some o =>
        obtain ⟨m, q'⟩ := o
        rw [hb] at h
        simp only at h
        split_ifs at h with hmk
        · cases h
          rw [longest_append hl hn, ih hb (hmk.trans hn)]
          exact if_pos hmk
        · cases h
          rw [longest_append hl (by omega), ih hb hn]
          exact if_neg hmk

/-- **Tokens can be split where the text can**: the parts of a token list are the tokens of the parts of the text. -/
theorem scan_split {ts us : List β} (h : scan rs w = ts ++ us) :
    ∃ u v, w = u ++ v ∧ scan rs u = ts ∧ scan rs v = us := by
  induction hk : w.length using Nat.strongRecOn generalizing w ts with
  | ind k ih =>
    cases ts with
    | nil => exact ⟨[], w, rfl, rfl, h⟩
    | cons t ts =>
      have hlexeme : ∃ n r, best w rs = some (n + 1, r) := by
        by_contra hno
        have hnil : scan rs w = [] := by
          unfold scan
          cases w with
          | nil => rfl
          | cons a w =>
            rw [List.length_cons, scanAux]
            split
            · rename_i n r hb
              exact absurd ⟨n, r, hb⟩ hno
            · rfl
        rw [hnil] at h
        cases h
      obtain ⟨n, r, hb⟩ := hlexeme
      have hn : n + 1 ≤ w.length := (best_spec hb).2.1.1
      have hlen : (w.drop (n + 1)).length < k := by
        rw [List.length_drop]
        omega
      rw [scan_eq hb] at h
      -- the tokens behind the first lexeme
      obtain ⟨ts', hts, hrest⟩ : ∃ ts', (r.action (w.take (n + 1))).toList ++ ts' = t :: ts ∧
          scan rs (w.drop (n + 1)) = ts' ++ us := by
        cases hact : r.action (w.take (n + 1)) with
        | none =>
          rw [hact] at h
          exact ⟨t :: ts, rfl, h⟩
        | some t' =>
          rw [hact] at h
          obtain ⟨rfl, hrest⟩ := List.cons.inj h
          exact ⟨ts, rfl, hrest⟩
      obtain ⟨u, v, hw, hu, hv⟩ := ih _ hlen hrest rfl
      have hsplit : w = (w.take (n + 1) ++ u) ++ v := by
        rw [List.append_assoc, ← hw, List.take_append_drop]
      have htake : (w.take (n + 1)).length = n + 1 := List.length_take_of_le hn
      have hb' : best (w.take (n + 1) ++ u) rs = some (n + 1, r) :=
        best_append (hsplit ▸ hb) (by rw [List.length_append, htake]; omega)
      refine ⟨w.take (n + 1) ++ u, v, hsplit, ?_, hv⟩
      rw [scan_eq hb', List.take_left' htake, List.drop_left' htake, hu, hts]

/-- The parts of a token list are the tokens of the parts of the text. -/
theorem scan_parts {part : List β} {parts : List (List β)} (h : scan rs w = (part :: parts).flatten) :
    ∃ texts, w = texts.flatten ∧ List.Forall₂ (fun u ts => scan rs u = ts) texts (part :: parts) := by
  induction parts generalizing w part with
  | nil => exact ⟨[w], by simp, .cons (by simpa using h) .nil⟩
  | cons part' parts ih =>
    obtain ⟨u, v, rfl, hu, hv⟩ := scan_split h
    obtain ⟨texts, rfl, htexts⟩ := ih hv
    exact ⟨u :: texts, rfl, .cons hu htexts⟩

end Lexer
end Hmon.Lib
