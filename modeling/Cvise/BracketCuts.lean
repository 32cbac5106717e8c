import Cvise.Brackets

namespace Cvise
set_option autoImplicit true

namespace Brackets

variable {α : Type} [DecidableEq α] {o c : α} {data : List α}

/-- Reads `n` positions from `a` on, apart from those that are masked. -/
def scan (o c : α) (data : List α) (mask : Nat → Prop) [DecidablePred mask] (a n : Nat)
    (u : Unmatched) : Unmatched :=
  (List.range' a n).foldl (fun u i => if mask i then u else data[i]?.toList.foldl (read o c) u) u

section scan

variable {mask mask' : Nat → Prop} [DecidablePred mask] [DecidablePred mask']

theorem scan_add (a m n : Nat) (u : Unmatched) : scan o c data mask a (m + n) u =
    scan o c data mask (a + m) n (scan o c data mask a m u) := by
  rw [scan, ← List.range'_append_1, List.foldl_append]
  rfl

theorem scan_zero (a : Nat) (u : Unmatched) : scan o c data mask a 0 u = u := rfl

theorem scan_one (a : Nat) (u : Unmatched) : scan o c data mask a 1 u =
    if mask a then u else data[a]?.toList.foldl (read o c) u := rfl

theorem scan_congr (h : ∀ i, a ≤ i → i < a + n → (mask i ↔ mask' i)) (u : Unmatched) :
    scan o c data mask a n u = scan o c data mask' a n u := by
  induction n with
  | zero => rfl
  | succ n ih =>
    rw [scan_add, scan_add, ih fun i hl hr => h i hl (by omega), scan_one, scan_one]
    simp only [h (a + n) (by omega) (by omega)]

theorem scan_masked (h : ∀ i, a ≤ i → i < a + n → mask i) (u : Unmatched) :
    scan o c data mask a n u = u := by
  induction n with
  | zero => rfl
  | succ n ih =>
    rw [scan_add, ih fun i hl hr => h i hl (by omega), scan_one, if_pos (h (a + n) (by omega) (by omega))]

/-- Letters that are no brackets leave the state, masked or not. -/
theorem scan_neutral (h : ∀ i, a ≤ i → i < a + n → data[i]? ≠ some o ∧ data[i]? ≠ some c)
    (u : Unmatched) : scan o c data mask a n u = u := by
  induction n with
  | zero => rfl
  | succ n ih =>
    rw [scan_add, ih fun i hl hr => h i hl (by omega), scan_one]
    obtain ⟨ho, hc⟩ := h (a + n) (by omega) (by omega)
    split
    · rfl
    · cases hb : data[a + n]? with
      | none => rfl
      | some b =>
        rw [hb] at ho hc
        rw [Option.toList_some, List.foldl_cons, List.foldl_nil, read,
          if_neg fun he => ho (congrArg some he), if_neg fun he => hc (congrArg some he)]

theorem scan_opener (h : data[a]? = some o) (hmask : ¬ mask a) (u : Unmatched) :
    scan o c data mask a 1 u = ⟨u.closers, u.openers + 1⟩ := by
  rw [scan_one, if_neg hmask, h, Option.toList_some, List.foldl_cons, List.foldl_nil, read,
    if_pos rfl]

theorem scan_closer (hne : o ≠ c) (h : data[a]? = some c) (hmask : ¬ mask a) (m n : Nat) :
    scan o c data mask a 1 ⟨m, n + 1⟩ = ⟨m, n⟩ := by
  rw [scan_one, if_neg hmask, h, Option.toList_some, List.foldl_cons, List.foldl_nil, read,
    if_neg hne.symm, if_pos rfl]

/-- Above the level that it starts from, a text only opens and closes brackets of its own. -/
theorem scan_above (hne : o ≠ c) (hmask : ∀ i, ¬ mask i)
    (h : ∀ k ≤ n, height o c data a ≤ height o c data (a + k)) (u : Unmatched) :
    (scan o c data mask a n u).closers = u.closers ∧
      ((scan o c data mask a n u).openers : Int) =
        u.openers + height o c data (a + n) - height o c data a := by
  induction n with
  | zero =>
    refine ⟨rfl, ?_⟩
    rw [scan_zero, Nat.add_zero]
    omega
  | succ n ih =>
    obtain ⟨hclosers, hopeners⟩ := ih fun k hk => h k (by omega)
    rw [scan_add, ← hclosers]
    generalize scan o c data mask a n u = v at hclosers hopeners
    have hstep := h (n + 1) (Nat.le_refl _)
    rw [← Nat.add_assoc] at hstep ⊢
    rw [scan_one, if_neg (hmask _)]
    cases hb : data[a + n]? with
    | none =>
      have hend : height o c data (a + n + 1) = height o c data (a + n) := by
        have hlen := List.getElem?_eq_none_iff.1 hb
        rw [height, height, List.take_of_length_le hlen, List.take_of_length_le (by omega)]
      exact ⟨rfl, by rw [hend]; exact hopeners⟩
    | some b =>
      rw [Option.toList_some, List.foldl_cons, List.foldl_nil, read]
      by_cases ho : b = o
      · have hup := height_opener hne (ho ▸ hb)
        rw [if_pos ho]
        refine ⟨rfl, ?_⟩
        push_cast
        omega
      by_cases hc : b = c
      · have hdown := height_closer hne (hc ▸ hb)
        rw [if_neg ho, if_pos hc]
        cases hv : v.openers with
        | zero => omega
        | succ m =>
          refine ⟨rfl, ?_⟩
          show (m : Int) = _
          omega
      · have hstay := height_other hb ho hc
        rw [if_neg ho, if_neg hc]
        refine ⟨rfl, ?_⟩
        omega

end scan

theorem Matched.scan_between (hne : o ≠ c) (h : Matched o c data i j) (u : Unmatched) :
    scan o c data (fun _ => False) (i + 1) (j - (i + 1)) u = u := by
  have hlt := h.lt
  have hend : i + 1 + (j - (i + 1)) = j := by omega
  obtain ⟨hclosers, hopeners⟩ := scan_above hne (fun _ : Nat => not_false)
    (fun k (hk : k ≤ j - (i + 1)) => h.above (i + 1 + k) (by omega) (by omega)) u
  rw [hend, h.level] at hopeners
  generalize scan o c data (fun _ => False) (i + 1) (j - (i + 1)) u = v at hclosers hopeners
  obtain ⟨m, n⟩ := v
  obtain ⟨m', n'⟩ := u
  obtain rfl : m = m' := hclosers
  have hsame : (n : Int) = n' + height o c data (i + 1) - height o c data (i + 1) := hopeners
  obtain rfl : n = n' := by omega
  rfl

/-- What is cut out of a text for a pair of brackets: the brackets, with letters before the first of
them, or what lies between them, or both. -/
structure Cut where
  start : Nat
  opener : Nat
  closer : Nat
  ends : Bool
  inside : Bool
deriving DecidableEq

namespace Cut

def Takes (x : Cut) (i : Nat) : Prop :=
  (x.ends = true ∧ ((x.start ≤ i ∧ i ≤ x.opener) ∨ i = x.closer)) ∨
    (x.inside = true ∧ x.opener < i ∧ i < x.closer)

instance (x : Cut) (i : Nat) : Decidable (x.Takes i) :=
  inferInstanceAs (Decidable ((x.ends = true ∧ ((x.start ≤ i ∧ i ≤ x.opener) ∨ i = x.closer)) ∨
    (x.inside = true ∧ x.opener < i ∧ i < x.closer)))

/-- The brackets are a pair, and no bracket comes between the start and the opener. -/
structure Valid (o c : α) (data : List α) (x : Cut) : Prop where
  matched : Matched o c data x.opener x.closer
  start_le : x.start ≤ x.opener
  lead : ∀ k, x.start ≤ k → k < x.opener → data[k]? ≠ some o ∧ data[k]? ≠ some c

/-- The cut lies in the segment of `n` positions from `a` on, or apart from it. -/
def Fits (x : Cut) (a n : Nat) : Prop :=
  (a ≤ x.start ∧ x.closer < a + n) ∨ x.closer < a ∨ a + n ≤ x.start

variable {x y : Cut}

theorem Takes.bounds (h : x.Takes i) (hx : x.Valid o c data) : x.start ≤ i ∧ i ≤ x.closer := by
  have hle := hx.start_le
  have hlt := hx.matched.lt
  rcases h with ⟨-, h⟩ | ⟨-, h⟩
  · omega
  · omega

/-- Of two cuts, the one that ends first lies between the other's brackets or before it. -/
theorem Valid.apart (hne : o ≠ c) (hx : x.Valid o c data) (hy : y.Valid o c data)
    (h : y.closer < x.closer) : x.opener < y.start ∨ y.closer < x.start := by
  have hopener := hx.matched.opener
  have hcloser := hy.matched.closer
  rcases hx.matched.laminar hne hy.matched h with hin | hbefore
  · left
    by_contra hle
    exact (hy.lead x.opener (Nat.not_lt.1 hle) hin).1 hopener
  · right
    by_contra hle
    exact (hx.lead y.closer (Nat.not_lt.1 hle) hbefore).2 hcloser

end Cut

section pair

variable {mask : Nat → Prop} [DecidablePred mask]

theorem scan_split (hab : a ≤ b) (hbc : b ≤ a + n) (u : Unmatched) : scan o c data mask a n u =
    scan o c data mask b (a + n - b) (scan o c data mask a (b - a) u) := by
  have hsplit : scan o c data mask a (b - a + (a + n - b)) u = _ := scan_add a (b - a) (a + n - b) u
  rw [show b - a + (a + n - b) = n by omega, show a + (b - a) = b by omega] at hsplit
  exact hsplit

theorem scan_pieces (ha : a ≤ start) (hs : start ≤ i) (hij : i < j) (hj : j < a + n)
    (u : Unmatched) : scan o c data mask a n u =
      scan o c data mask (j + 1) (a + n - (j + 1)) (scan o c data mask j 1
        (scan o c data mask (i + 1) (j - (i + 1)) (scan o c data mask i 1
          (scan o c data mask start (i - start) (scan o c data mask a (start - a) u))))) := by
  rw [scan_split ha (by omega), scan_split hs (by omega),
    scan_split (b := i + 1) (by omega) (by omega), scan_split (b := j) (by omega) (by omega),
    scan_split (b := j + 1) (by omega) (by omega)]
  rw [show start + (a + n - start) = a + n by omega, show i + (a + n - i) = a + n by omega,
    show i + 1 + (a + n - (i + 1)) = a + n by omega, show j + (a + n - j) = a + n by omega,
    show i + 1 - i = 1 by omega, show j + 1 - j = 1 by omega]

/-- Both brackets are read, or both are masked, around what leaves the state. -/
theorem scan_pair (hne : o ≠ c) (h : Matched o c data i j)
    (hbetween : ∀ u, scan o c data mask (i + 1) (j - (i + 1)) u = u) (hends : mask i ↔ mask j)
    (u : Unmatched) : scan o c data mask j 1
      (scan o c data mask (i + 1) (j - (i + 1)) (scan o c data mask i 1 u)) = u := by
  by_cases hi : mask i
  · rw [scan_one i, if_pos hi, hbetween, scan_one, if_pos (hends.1 hi)]
  · rw [scan_opener h.opener hi, hbetween, scan_closer hne h.closer (fun hj => hi (hends.2 hj))]

end pair

/-- The masks of several cuts, of which each ends before the one that comes before it in the list. -/
theorem scan_cuts {S : List Cut} (hne : o ≠ c) (hvalid : ∀ x ∈ S, x.Valid o c data)
    (hdesc : S.Pairwise fun x y => y.closer < x.closer) (hfits : ∀ x ∈ S, x.Fits a n)
    (u : Unmatched) : scan o c data (fun i => ∃ x ∈ S, x.Takes i) a n u =
      scan o c data (fun _ => False) a n u := by
  induction S generalizing a n u with
  | nil => exact scan_congr (fun i _ _ => by simp) u
  | cons x S ih =>
    obtain ⟨hx, hS⟩ := List.forall_mem_cons.1 hvalid
    obtain ⟨hlater, hdescS⟩ := List.pairwise_cons.1 hdesc
    obtain ⟨hxfits, hSfits⟩ := List.forall_mem_cons.1 hfits
    have hstart := hx.start_le
    have hlt := hx.matched.lt
    have hmask (i : Nat) : (∃ y ∈ x :: S, y.Takes i) ↔ x.Takes i ∨ ∃ y ∈ S, y.Takes i :=
      by simp
    -- The other cuts lie between the brackets of this one, or before it.
    have hbounds : ∀ y ∈ S, ∀ i, y.Takes i →
        y.start ≤ i ∧ i ≤ y.closer ∧ (x.opener < y.start ∨ y.closer < x.start) := by
      intro y hy i hi
      obtain ⟨hl, hr⟩ := hi.bounds (hS y hy)
      exact ⟨hl, hr, hx.apart hne (hS y hy) (hlater y hy)⟩
    have hoff (a n : Nat) (hout : ∀ i, a ≤ i → i < a + n → ¬ x.Takes i)
        (hSfits : ∀ y ∈ S, y.Fits a n) (u : Unmatched) :
        scan o c data (fun i => ∃ y ∈ x :: S, y.Takes i) a n u =
          scan o c data (fun _ => False) a n u := by
      rw [← ih hS hdescS hSfits]
      refine scan_congr (fun i hl hr => ?_) u
      rw [hmask, or_iff_right (hout i hl hr)]
    rcases hxfits with ⟨hl, hr⟩ | hout
    · rw [scan_pieces hl hstart hlt hr, scan_pieces hl hstart hlt hr]
      have hhead := hoff a (x.start - a)
        (fun i _ hi ht => by have hb := (ht.bounds hx).1; omega)
        (fun y hy => by
          have hy' := hx.apart hne (hS y hy) (hlater y hy)
          have hle := (hS y hy).start_le
          have hlt := (hS y hy).matched.lt
          rcases hSfits y hy with hf | hf | hf
          · unfold Cut.Fits; omega
          · exact .inr (.inl hf)
          · unfold Cut.Fits; omega)
      have hbetween : ∀ u, scan o c data (fun i => ∃ y ∈ x :: S, y.Takes i) (x.opener + 1)
          (x.closer - (x.opener + 1)) u = u := by
        intro u
        cases hin : x.inside with
        | true =>
          exact scan_masked (fun i hl hr => (hmask i).2 (.inl (.inr ⟨hin, by omega, by omega⟩))) u
        | false =>
          rw [hoff, hx.matched.scan_between hne]
          · rintro i hl hr (⟨-, ht⟩ | ⟨ht, -⟩)
            · omega
            · rw [hin] at ht
              cases ht
          · intro y hy
            have hy' := hx.apart hne (hS y hy) (hlater y hy)
            have hcl := hlater y hy
            unfold Cut.Fits
            omega
      have hends : (∃ y ∈ x :: S, y.Takes x.opener) ↔ ∃ y ∈ x :: S, y.Takes x.closer := by
        have hopener : (∃ y ∈ x :: S, y.Takes x.opener) ↔ x.ends = true := by
          rw [hmask, or_iff_left]
          · simp [Cut.Takes, hstart]
          · rintro ⟨y, hy, ht⟩
            have hb := hbounds y hy _ ht
            omega
        have hcloser : (∃ y ∈ x :: S, y.Takes x.closer) ↔ x.ends = true := by
          rw [hmask, or_iff_left]
          · simp [Cut.Takes]
          · rintro ⟨y, hy, ht⟩
            have hb := hbounds y hy _ ht
            have hcl := hlater y hy
            omega
        rw [hopener, hcloser]
      rw [hhead, scan_neutral (fun i hl hr => hx.lead i hl (by omega)),
        scan_neutral (fun i hl hr => hx.lead i hl (by omega)),
        scan_pair hne hx.matched hbetween hends,
        scan_pair hne hx.matched (fun u => hx.matched.scan_between hne u) Iff.rfl]
      refine scan_congr (fun i hl hr => iff_of_false ?_ not_false) _
      rw [hmask]
      rintro (ht | ⟨y, hy, ht⟩)
      · have hb := (ht.bounds hx).2
        omega
      · have hb := hbounds y hy i ht
        have hcl := hlater y hy
        omega
    · refine hoff a n (fun i hl hr ht => ?_) hSfits u
      have hb := ht.bounds hx
      omega

end Brackets

end Cvise
