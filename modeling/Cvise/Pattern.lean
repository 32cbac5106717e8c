import Mathlib.Computability.Language

namespace Cvise
set_option autoImplicit true
open Computability

/-- Regular expressions whose letters are classes, matched by derivatives. -/
inductive Pattern (α : Type) where
  | never
  | empty
  | sat (accepts : α → Bool)
  | seq (p q : Pattern α)
  | alt (p q : Pattern α)
  | star (p : Pattern α)

namespace Pattern

/-- The words that a pattern matches. -/
def language : Pattern α → Language α
  | never => 0
  | empty => 1
  | sat accepts => {s | ∃ a, accepts a = true ∧ s = [a]}
  | seq p q => p.language * q.language
  | alt p q => p.language + q.language
  | star p => p.language∗

def opt (p : Pattern α) : Pattern α := alt p empty

def plus (p : Pattern α) : Pattern α := seq p (star p)

def word [DecidableEq α] : List α → Pattern α
  | [] => empty
  | [a] => sat (· = a)
  | a :: s => seq (sat (· = a)) (word s)

def nullable : Pattern α → Bool
  | never => false
  | empty => true
  | sat _ => false
  | seq p q => p.nullable && q.nullable
  | alt p q => p.nullable || q.nullable
  | star _ => true

/-- `seq`, without what cannot match. -/
def andThen : Pattern α → Pattern α → Pattern α
  | never, _ => never
  | empty, q => q
  | p, q => seq p q

/-- `alt`, without what cannot match. -/
def orElse : Pattern α → Pattern α → Pattern α
  | never, q => q
  | p, never => p
  | p, q => alt p q

/-- The words that `p` matches after `a`. -/
def deriv (a : α) : Pattern α → Pattern α
  | never => never
  | empty => never
  | sat accepts => if accepts a then empty else never
  | seq p q => if p.nullable then orElse (andThen (p.deriv a) q) (q.deriv a)
      else andThen (p.deriv a) q
  | alt p q => orElse (p.deriv a) (q.deriv a)
  | star p => andThen (p.deriv a) (star p)

/-- The length of the longest prefix that the pattern matches. -/
def longest : Pattern α → List α → Option Nat
  | p, [] => if p.nullable then some 0 else none
  | p, a :: s =>
    match longest (p.deriv a) s with
    | some n => some (n + 1)
    | none => if p.nullable then some 0 else none

/-- Whether a match can end in `a`, read off the pattern. It may say so too often. -/
def endsIn (a : α) : Pattern α → Bool
  | never => false
  | empty => false
  | sat accepts => accepts a
  | seq p q => q.endsIn a || (q.nullable && p.endsIn a)
  | alt p q => p.endsIn a || q.endsIn a
  | star p => p.endsIn a

theorem mem_sat : s ∈ (sat accepts).language ↔ ∃ a, accepts a = true ∧ s = [a] := Iff.rfl

theorem mem_seq : s ∈ (seq p q).language ↔
    ∃ t ∈ p.language, ∃ u ∈ q.language, t ++ u = s := Language.mem_mul

theorem mem_alt : s ∈ (alt p q).language ↔ s ∈ p.language ∨ s ∈ q.language :=
  Language.mem_add _ _ _

theorem nullable_iff (p : Pattern α) : p.nullable = true ↔ [] ∈ p.language := by
  induction p with
  | never => simp [nullable, language]
  | empty => simp [nullable, language]
  | sat accepts => simp [nullable, mem_sat]
  | seq p q ihp ihq =>
    rw [nullable, Bool.and_eq_true, ihp, ihq, mem_seq]
    constructor
    · intro h
      exact ⟨[], h.1, [], h.2, rfl⟩
    · rintro ⟨t, ht, u, hu, he⟩
      obtain ⟨rfl, rfl⟩ := List.append_eq_nil_iff.1 he
      exact ⟨ht, hu⟩
  | alt p q ihp ihq => rw [nullable, Bool.or_eq_true, ihp, ihq, mem_alt]
  | star p ih => simp [nullable, language, Language.nil_mem_kstar]

theorem language_andThen (p q : Pattern α) : (andThen p q).language = (seq p q).language := by
  cases p with
  | never => simp [andThen, language]
  | empty => simp [andThen, language]
  | _ => rfl

theorem language_orElse (p q : Pattern α) : (orElse p q).language = (alt p q).language := by
  unfold orElse
  split
  · simp [language]
  · simp [language]
  · rfl

/-- A nonempty word of a repetition starts with a nonempty word of what is repeated. -/
theorem cons_mem_star : a :: s ∈ (star p).language ↔
    ∃ t, a :: t ∈ p.language ∧ ∃ u ∈ (star p).language, t ++ u = s := by
  constructor
  · intro h
    obtain ⟨parts, he, hp⟩ := Language.mem_kstar_iff_exists_nonempty.1 h
    cases parts with
    | nil => cases he
    | cons first parts =>
      obtain ⟨hfirst, hne⟩ := hp first List.mem_cons_self
      obtain ⟨b, t, rfl⟩ := List.exists_cons_of_ne_nil hne
      obtain ⟨rfl, rfl⟩ := List.cons.inj he
      have hrest : parts.flatten ∈ (star p).language :=
        Language.join_mem_kstar fun y hy => (hp y (List.mem_cons_of_mem _ hy)).1
      exact ⟨t, hfirst, _, hrest, rfl⟩
  · rintro ⟨t, ht, u, ⟨parts, rfl, hp⟩, rfl⟩
    have hall : ∀ y ∈ (a :: t) :: parts, y ∈ p.language := List.forall_mem_cons.2 ⟨ht, hp⟩
    exact Language.join_mem_kstar hall

theorem mem_deriv (a : α) (p : Pattern α) : s ∈ (p.deriv a).language ↔ a :: s ∈ p.language := by
  induction p generalizing s with
  | never => simp [deriv, language]
  | empty => simp [deriv, language]
  | sat accepts =>
    rw [deriv, mem_sat]
    by_cases h : accepts a = true
    · simp [h, language]
    · simp [h, language]
  | seq p q ihp ihq =>
    have hcut : (∃ t ∈ (p.deriv a).language, ∃ u ∈ q.language, t ++ u = s) ↔
        ∃ t, a :: t ∈ p.language ∧ ∃ u ∈ q.language, t ++ u = s := by simp only [ihp]
    rw [mem_seq]
    by_cases hn : p.nullable = true
    · rw [deriv, if_pos hn, language_orElse, mem_alt, language_andThen, mem_seq, hcut, ihq]
      constructor
      · rintro (⟨t, ht, u, hu, rfl⟩ | h)
        · exact ⟨a :: t, ht, u, hu, rfl⟩
        · exact ⟨[], (nullable_iff p).1 hn, _, h, rfl⟩
      · rintro ⟨t, ht, u, hu, he⟩
        cases t with
        | nil => exact .inr (he ▸ hu)
        | cons b t =>
          obtain ⟨hb, htu⟩ := List.cons.inj he
          exact .inl ⟨t, hb ▸ ht, u, hu, htu⟩
    · rw [deriv, if_neg hn, language_andThen, mem_seq, hcut]
      constructor
      · rintro ⟨t, ht, u, hu, rfl⟩
        exact ⟨a :: t, ht, u, hu, rfl⟩
      · rintro ⟨t, ht, u, hu, he⟩
        cases t with
        | nil => exact absurd ((nullable_iff p).2 ht) hn
        | cons b t =>
          obtain ⟨hb, htu⟩ := List.cons.inj he
          exact ⟨t, hb ▸ ht, u, hu, htu⟩
  | alt p q ihp ihq => rw [deriv, language_orElse, mem_alt, mem_alt, ihp, ihq]
  | star p ih =>
    rw [deriv, language_andThen, mem_seq, cons_mem_star]
    simp only [ih]

theorem mem_star_sat : s ∈ (star (sat accepts)).language ↔ ∀ a ∈ s, accepts a = true := by
  induction s with
  | nil => exact iff_of_true (Language.nil_mem_kstar _) (List.forall_mem_nil _)
  | cons a s ih =>
    rw [cons_mem_star, List.forall_mem_cons]
    constructor
    · rintro ⟨t, ⟨b, hb, he⟩, u, hu, rfl⟩
      obtain ⟨rfl, rfl⟩ := List.cons.inj he
      exact ⟨hb, ih.1 hu⟩
    · intro h
      exact ⟨[], ⟨a, h.1, rfl⟩, s, ih.2 h.2, rfl⟩

theorem longest_mem {p : Pattern α} {s : List α} (h : longest p s = some n) :
    n ≤ s.length ∧ s.take n ∈ p.language := by
  induction s generalizing p n with
  | nil =>
    rw [longest] at h
    split at h
    · rename_i hn
      obtain rfl := Option.some.inj h
      exact ⟨Nat.le_refl _, (nullable_iff p).1 hn⟩
    · cases h
  | cons a s ih =>
    rw [longest] at h
    split at h
    · rename_i m hm
      obtain rfl := Option.some.inj h
      obtain ⟨hle, hmem⟩ := ih hm
      exact ⟨Nat.succ_le_succ hle, (mem_deriv a p).1 hmem⟩
    · split at h
      · rename_i hn
        obtain rfl := Option.some.inj h
        exact ⟨Nat.zero_le _, (nullable_iff p).1 hn⟩
      · cases h

theorem le_longest {p : Pattern α} {s : List α} (hle : m ≤ s.length)
    (h : s.take m ∈ p.language) : ∃ n, longest p s = some n ∧ m ≤ n := by
  induction s generalizing p m with
  | nil =>
    obtain rfl : m = 0 := Nat.le_zero.1 hle
    exact ⟨0, if_pos ((nullable_iff p).2 h), Nat.le_refl _⟩
  | cons a s ih =>
    rw [longest]
    cases m with
    | zero =>
      have hn := (nullable_iff p).2 h
      cases hl : longest (p.deriv a) s with
      | some n => exact ⟨n + 1, rfl, Nat.zero_le _⟩
      | none => exact ⟨0, if_pos hn, Nat.le_refl _⟩
    | succ m =>
      obtain ⟨n, hn, hmn⟩ := ih (Nat.le_of_succ_le_succ hle) ((mem_deriv a p).2 h)
      rw [hn]
      exact ⟨n + 1, rfl, Nat.succ_le_succ hmn⟩

theorem endsIn_of_mem {p : Pattern α} {s : List α} (h : s ++ [a] ∈ p.language) :
    p.endsIn a = true := by
  induction p generalizing s with
  | never => exact absurd h (Language.notMem_zero _)
  | empty => simp [language] at h
  | sat accepts =>
    obtain ⟨b, hb, he⟩ := h
    have hlast : [a] = [b] :=
      List.append_inj_right' (he.trans (List.nil_append [b]).symm) rfl
    exact (List.singleton_inj.1 hlast) ▸ hb
  | seq p q ihp ihq =>
    obtain ⟨t, ht, u, hu, he⟩ := mem_seq.1 h
    rw [endsIn, Bool.or_eq_true, Bool.and_eq_true]
    rcases List.eq_nil_or_concat' u with rfl | ⟨u, b, rfl⟩
    · rw [List.append_nil] at he
      exact .inr ⟨(nullable_iff q).2 hu, ihp (he ▸ ht)⟩
    · rw [← List.append_assoc] at he
      obtain ⟨-, he⟩ := List.append_inj' he rfl
      exact .inl (ihq ((List.singleton_inj.1 he) ▸ hu))
  | alt p q ihp ihq =>
    rw [endsIn, Bool.or_eq_true]
    exact (mem_alt.1 h).imp ihp ihq
  | star p ih =>
    obtain ⟨parts, he, hp⟩ := Language.mem_kstar_iff_exists_nonempty.1 h
    rcases List.eq_nil_or_concat' parts with rfl | ⟨parts, last, rfl⟩
    · simp at he
    · obtain ⟨hlast, hne⟩ := hp last (by simp)
      obtain ⟨u, b, rfl⟩ := (List.eq_nil_or_concat' last).resolve_left hne
      rw [List.flatten_append, List.flatten_singleton, ← List.append_assoc] at he
      obtain ⟨-, he⟩ := List.append_inj' he rfl
      exact ih ((List.singleton_inj.1 he) ▸ hlast)

def isSat : Pattern α → Bool
  | sat _ => true
  | _ => false

theorem eq_singleton_of_isSat {p : Pattern α} (hp : p.isSat = true) (h : s ∈ p.language) :
    ∃ a, s = [a] := by
  cases p with
  | sat accepts =>
    obtain ⟨a, -, he⟩ := h
    exact ⟨a, he⟩
  | _ => cases hp

def isNever : Pattern α → Bool
  | never => true
  | _ => false

theorem not_mem_of_deriv {p : Pattern α} (hp : (p.deriv a).isNever = true) :
    a :: s ∉ p.language := fun h => by
  have hs := (mem_deriv a p).2 h
  cases hd : p.deriv a with
  | never =>
    rw [hd] at hs
    exact Language.notMem_zero s hs
  | _ =>
    rw [hd] at hp
    cases hp

theorem mem_word [DecidableEq α] (w : List α) : s ∈ (word w).language ↔ s = w := by
  induction w using word.induct generalizing s with
  | case1 => exact Language.mem_one s
  | case2 a =>
    rw [word, mem_sat]
    simp
  | case3 a w hne ih =>
    have hword : word (a :: w) = seq (sat (· = a)) (word w) := word.eq_3 a w hne
    rw [hword, mem_seq]
    constructor
    · rintro ⟨t, ⟨b, hb, rfl⟩, u, hu, rfl⟩
      rw [ih.1 hu, of_decide_eq_true hb]
      rfl
    · rintro rfl
      exact ⟨[a], ⟨a, decide_eq_true rfl, rfl⟩, w, ih.2 rfl, rfl⟩

end Pattern

/-- Maximal munch: the longest match of the rules, and of equally long ones the first rule's. -/
def munch : List (Pattern α × ρ) → List α → Option (Nat × ρ)
  | [], _ => none
  | (p, r) :: rules, s =>
    match p.longest s, munch rules s with
    | some n, some (m, r') => if n < m then some (m, r') else some (n, r)
    | some n, none => some (n, r)
    | none, rest => rest

theorem munch_mem {rules : List (Pattern α × ρ)} (h : munch rules s = some (n, r)) :
    ∃ p, (p, r) ∈ rules ∧ n ≤ s.length ∧ s.take n ∈ p.language := by
  induction rules generalizing n r with
  | nil => cases h
  | cons rule rules ih =>
    obtain ⟨p, r₁⟩ := rule
    have hrest (h : munch rules s = some (n, r)) :
        ∃ q, (q, r) ∈ (p, r₁) :: rules ∧ n ≤ s.length ∧ s.take n ∈ q.language := by
      obtain ⟨q, hq, hmem⟩ := ih h
      exact ⟨q, List.mem_cons_of_mem _ hq, hmem⟩
    rw [munch] at h
    split at h
    · rename_i n₁ m r' h₁ hm
      split at h
      · exact hrest (hm.trans h)
      · obtain ⟨rfl, rfl⟩ := Prod.mk.inj (Option.some.inj h)
        exact ⟨p, List.mem_cons_self, Pattern.longest_mem h₁⟩
    · rename_i n₁ h₁ hm
      obtain ⟨rfl, rfl⟩ := Prod.mk.inj (Option.some.inj h)
      exact ⟨p, List.mem_cons_self, Pattern.longest_mem h₁⟩
    · exact hrest h

theorem le_munch {rules : List (Pattern α × ρ)} (hp : (p, r) ∈ rules) (hle : m ≤ s.length)
    (h : s.take m ∈ p.language) : ∃ n r', munch rules s = some (n, r') ∧ m ≤ n := by
  induction rules with
  | nil => cases hp
  | cons rule rules ih =>
    obtain ⟨q, r₁⟩ := rule
    rw [munch]
    rcases List.mem_cons.1 hp with he | hp
    · obtain ⟨rfl, rfl⟩ := Prod.mk.inj he
      obtain ⟨n, hn, hmn⟩ := Pattern.le_longest hle h
      rw [hn]
      cases munch rules s with
      | none => exact ⟨n, r, rfl, hmn⟩
      | some found =>
        obtain ⟨m', r'⟩ := found
        by_cases hlt : n < m'
        · exact ⟨m', r', if_pos hlt, by omega⟩
        · exact ⟨n, r, if_neg hlt, hmn⟩
    · obtain ⟨n, r', hn, hmn⟩ := ih hp
      rw [hn]
      cases q.longest s with
      | none => exact ⟨n, r', rfl, hmn⟩
      | some n₁ =>
        by_cases hlt : n₁ < n
        · exact ⟨n, r', if_pos hlt, hmn⟩
        · exact ⟨n₁, r₁, if_neg hlt, by omega⟩

theorem munch_append (rules rules' : List (Pattern α × ρ)) (s : List α) :
    munch (rules ++ rules') s =
      match munch rules s, munch rules' s with
      | some (n, r), some (m, r') => if n < m then some (m, r') else some (n, r)
      | some (n, r), none => some (n, r)
      | none, rest => rest := by
  induction rules with
  | nil => rfl
  | cons rule rules ih =>
    obtain ⟨p, r⟩ := rule
    rw [List.cons_append, munch, munch, ih]
    cases p.longest s with
    | none =>
      cases munch rules s <;> rfl
    | some n =>
      cases munch rules s with
      | none => cases munch rules' s <;> rfl
      | some found =>
        obtain ⟨m, r'⟩ := found
        cases munch rules' s with
        | none => cases Decidable.em (n < m) <;> simp [*]
        | some found' =>
          obtain ⟨k, r''⟩ := found'
          by_cases hnm : n < m <;> by_cases hmk : m < k <;> by_cases hnk : n < k <;>
            simp [hnm, hmk, hnk] <;> omega

/-- A rule that matches no more than the ones before it is not used. -/
theorem munch_before {rules rules' : List (Pattern α × ρ)} (h : munch rules s = some (n, r))
    (hle : ∀ m r', munch rules' s = some (m, r') → m ≤ n) :
    munch (rules ++ rules') s = some (n, r) := by
  rw [munch_append, h]
  cases hm : munch rules' s with
  | none => rfl
  | some found =>
    obtain ⟨m, r'⟩ := found
    exact if_neg (Nat.not_lt.2 (hle m r' hm))

namespace Pattern

theorem mem_opt : s ∈ (opt p).language ↔ s ∈ p.language ∨ s = [] := by
  rw [opt, mem_alt]
  exact or_congr_right (Language.mem_one s)

theorem longest_whole {p : Pattern α} {s : List α} :
    p.longest s = some s.length ↔ s ∈ p.language := by
  constructor
  · intro h
    have hmem := (longest_mem h).2
    rw [List.take_length] at hmem
    exact hmem
  · intro h
    rw [← List.take_length (l := s)] at h
    obtain ⟨n, hn, hle⟩ := le_longest (Nat.le_refl _) h
    rw [hn, Nat.le_antisymm (longest_mem hn).1 hle]

end Pattern

/-- The first rule that matches a whole word. -/
def firstRule (rules : List (Pattern α × ρ)) (word : List α) : Option ρ :=
  match rules with
  | [] => none
  | (p, r) :: rules => if p.longest word = some word.length then some r else firstRule rules word

theorem firstRule_pos {p : Pattern α} {word : List α} (h : word ∈ p.language) (r : ρ)
    (rules : List (Pattern α × ρ)) : firstRule ((p, r) :: rules) word = some r :=
  if_pos (Pattern.longest_whole.2 h)

theorem firstRule_neg {p : Pattern α} {word : List α} (h : word ∉ p.language) (r : ρ)
    (rules : List (Pattern α × ρ)) : firstRule ((p, r) :: rules) word = firstRule rules word :=
  if_neg fun hl => h (Pattern.longest_whole.1 hl)

theorem firstRule_eq_none {rules : List (Pattern α × ρ)} {word : List α} :
    firstRule rules word = none ↔ ∀ rule ∈ rules, word ∉ rule.1.language := by
  induction rules with
  | nil => simp [firstRule]
  | cons rule rules ih =>
    obtain ⟨p, r⟩ := rule
    rw [List.forall_mem_cons]
    by_cases h : word ∈ p.language
    · simp [firstRule_pos h, h]
    · simp [firstRule_neg h, h, ih]

theorem firstRule_mem {rules : List (Pattern α × ρ)} {word : List α}
    (h : firstRule rules word = some r) : ∃ p, (p, r) ∈ rules ∧ word ∈ p.language := by
  induction rules with
  | nil => cases h
  | cons rule rules ih =>
    obtain ⟨p, r'⟩ := rule
    by_cases hword : word ∈ p.language
    · rw [firstRule_pos hword] at h
      cases h
      exact ⟨p, List.mem_cons_self, hword⟩
    · rw [firstRule_neg hword] at h
      obtain ⟨q, hq, hmem⟩ := ih h
      exact ⟨q, List.mem_cons_of_mem _ hq, hmem⟩

/-- A match is the longest word that a rule matches, with the first rule for that word. -/
theorem munch_first {rules : List (Pattern α × ρ)} {s : List α} (h : munch rules s = some (n, r)) :
    firstRule rules (s.take n) = some r ∧
      ∀ m, n < m → m ≤ s.length → firstRule rules (s.take m) = none := by
  have hlonger : ∀ {p : Pattern α} {k m : Nat}, p.longest s = some k → k < m → m ≤ s.length →
      s.take m ∉ p.language := by
    intro p k m hk hlt hle hmem
    obtain ⟨k', hk', hmk⟩ := Pattern.le_longest hle hmem
    rw [hk, Option.some.injEq] at hk'
    omega
  have hnone : ∀ {p : Pattern α} {m : Nat}, p.longest s = none → m ≤ s.length →
      s.take m ∉ p.language := by
    intro p m hk hle hmem
    obtain ⟨k', hk', -⟩ := Pattern.le_longest hle hmem
    rw [hk] at hk'
    cases hk'
  induction rules generalizing n r with
  | nil => cases h
  | cons rule rules ih =>
    obtain ⟨p, r₁⟩ := rule
    obtain ⟨-, -, hn, -⟩ := munch_mem h
    rw [munch] at h
    split at h
    · rename_i k m r' hk hm
      obtain ⟨hfirst, hbehind⟩ := ih hm
      split at h
      · rename_i hlt
        cases h
        refine ⟨?_, fun m' hm' hle => ?_⟩
        · rw [firstRule_neg (hlonger hk hlt hn)]
          exact hfirst
        · rw [firstRule_neg (hlonger hk (hlt.trans hm') hle)]
          exact hbehind m' hm' hle
      · rename_i hge
        cases h
        refine ⟨?_, fun m' hm' hle => ?_⟩
        · exact firstRule_pos (Pattern.longest_mem hk).2 _ _
        · rw [firstRule_neg (hlonger hk hm' hle)]
          exact hbehind m' (by omega) hle
    · rename_i k hk hm
      cases h
      have hrest : ∀ m ≤ s.length, firstRule rules (s.take m) = none := by
        intro m hle
        rw [firstRule_eq_none]
        intro rule hrule hmem
        obtain ⟨k, r', hk, -⟩ := le_munch (r := rule.2) (p := rule.1) hrule hle hmem
        rw [hm] at hk
        cases hk
      refine ⟨?_, fun m' hm' hle => ?_⟩
      · exact firstRule_pos (Pattern.longest_mem hk).2 _ _
      · rw [firstRule_neg (hlonger hk hm' hle)]
        exact hrest m' hle
    · rename_i hk
      obtain ⟨hfirst, hbehind⟩ := ih h
      refine ⟨?_, fun m' hm' hle => ?_⟩
      · rw [firstRule_neg (hnone hk hn)]
        exact hfirst
      · rw [firstRule_neg (hnone hk hle)]
        exact hbehind m' hm' hle

end Cvise
