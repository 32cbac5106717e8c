import Mathlib.Data.List.Count
import Mathlib.Data.List.Range
import Mathlib.Tactic.ByContra

namespace Cvise
set_option autoImplicit true

/-- What is unmatched in a text, of two brackets that close each other. -/
structure Unmatched where
  closers : Nat := 0
  openers : Nat := 0
deriving DecidableEq

namespace Brackets

variable {α : Type} [DecidableEq α] (o c : α)

/-- One more letter of the text: a closing bracket takes the last opener that is open, if any. -/
def read (u : Unmatched) (a : α) : Unmatched :=
  if a = o then { u with openers := u.openers + 1 }
  else if a = c then
    match u.openers with
    | 0 => { u with closers := u.closers + 1 }
    | n + 1 => { u with openers := n }
  else u

def unmatched (data : List α) : Unmatched := data.foldl (read o c) {}

def stackPairs (stack : List Nat) (pos : Nat) : List α → List (Nat × Nat)
  | [] => []
  | a :: rest =>
    if a = o then stackPairs (pos :: stack) (pos + 1) rest
    else if a = c then
      match stack with
      | [] => stackPairs [] (pos + 1) rest
      | p :: stack => (p, pos) :: stackPairs stack (pos + 1) rest
    else stackPairs stack (pos + 1) rest

/-- By how much the opening brackets outnumber the closing ones before a position. -/
def height (data : List α) (i : Nat) : Int := (data.take i).count o - (data.take i).count c

/-- The brackets at `i` and `j` are a pair: what lies between them is balanced, that is its opening
brackets never fall behind its closing ones, and are as many in the end. -/
structure Matched (data : List α) (i j : Nat) : Prop where
  opener : data[i]? = some o
  closer : data[j]? = some c
  lt : i < j
  level : height o c data j = height o c data (i + 1)
  above : ∀ k, i < k → k ≤ j → height o c data (i + 1) ≤ height o c data k

section height

variable {o c} {data : List α}

theorem height_succ (h : data[i]? = some a) : height o c data (i + 1) =
    height o c data i + (if a = o then 1 else 0) - (if a = c then 1 else 0) := by
  rw [height, height, List.take_add_one, h, Option.toList_some, List.count_append,
    List.count_append, List.count_singleton, List.count_singleton]
  simp only [beq_iff_eq]
  split <;> split <;> push_cast <;> omega

theorem height_add (data : List α) (i k : Nat) :
    height o c data (i + k) = height o c data i + height o c (data.drop i) k := by
  rw [height, height, height, List.take_add, List.count_append, List.count_append]
  push_cast
  omega

theorem height_append (h : k ≤ data.length) (data' : List α) :
    height o c (data ++ data') k = height o c data k := by
  rw [height, height, List.take_append_of_le_length h]

variable (hne : o ≠ c)
include hne

theorem height_opener (h : data[i]? = some o) :
    height o c data (i + 1) = height o c data i + 1 := by
  rw [height_succ h, if_pos rfl, if_neg hne]
  omega

theorem height_closer (h : data[i]? = some c) :
    height o c data (i + 1) = height o c data i - 1 := by
  rw [height_succ h, if_pos rfl, if_neg hne.symm]
  omega

omit hne in
theorem height_other (h : data[i]? = some a) (ho : a ≠ o) (hc : a ≠ c) :
    height o c data (i + 1) = height o c data i := by
  rw [height_succ h, if_neg ho, if_neg hc]
  omega

theorem Matched.laminar (h : Matched o c data i j) (h' : Matched o c data i' j') (hj : j' < j) :
    i < i' ∨ j' < i := by
  by_contra hcross
  rw [not_or, Nat.not_lt, Nat.not_lt] at hcross
  obtain ⟨hle, hge⟩ := hcross
  have hapart : i ≠ j' := fun he => by
    have hopener := h.opener
    rw [he, h'.closer] at hopener
    exact hne (Option.some.inj hopener).symm
  have hclose := height_closer hne h'.closer
  have hopen := height_opener hne h.opener
  have hopen' := height_opener hne h'.opener
  have hlevel := h'.level
  have habove := h.above (j' + 1) (by omega) (by omega)
  rcases hle.lt_or_eq with hlt | rfl
  · have hmid := h'.above i hlt (by omega)
    omega
  · omega

end height

section stack

variable {o c} {data : List α}

/-- The openers that are open at a position, the last one first. -/
def StackAt (o c : α) (data : List α) (n : Nat) : List Nat → Prop
  | [] => ∀ k ≤ n, height o c data n ≤ height o c data k
  | p :: stack => data[p]? = some o ∧ p < n ∧ height o c data n = height o c data (p + 1) ∧
      (∀ k, p < k → k ≤ n → height o c data (p + 1) ≤ height o c data k) ∧ StackAt o c data p stack

variable (hne : o ≠ c)
include hne

omit hne in
theorem StackAt.push (h : StackAt o c data n stack) (ho : data[n]? = some o) :
    StackAt o c data (n + 1) (n :: stack) := by
  refine ⟨ho, Nat.lt_succ_self n, rfl, fun k hlt hle => ?_, h⟩
  obtain rfl : k = n + 1 := by omega
  exact Int.le_refl _

omit hne in
/-- The text between goes back to the level where the stack was. -/
theorem StackAt.extend (h : StackAt o c data p stack) (hp : p ≤ n)
    (hlevel : height o c data n = height o c data p)
    (habove : ∀ k, p < k → k ≤ n → height o c data p ≤ height o c data k) :
    StackAt o c data n stack := by
  cases stack with
  | nil =>
    intro k hk
    rw [hlevel]
    rcases Nat.lt_or_ge p k with hlt | hge
    · exact habove k hlt hk
    · exact h k hge
  | cons q stack =>
    obtain ⟨hq, hlt, he, hab, hstack⟩ := h
    refine ⟨hq, hlt.trans_le hp, hlevel.trans he, fun k hqk hkn => ?_, hstack⟩
    rcases Nat.lt_or_ge p k with hpk | hge
    · exact he ▸ habove k hpk hkn
    · exact hab k hqk hge

omit hne in
theorem StackAt.matched (h : StackAt o c data n (p :: stack)) (hc : data[n]? = some c) :
    Matched o c data p n := by
  obtain ⟨hp, hlt, hlevel, habove, -⟩ := h
  exact ⟨hp, hc, hlt, hlevel, habove⟩

theorem StackAt.pop (h : StackAt o c data n (p :: stack)) (hc : data[n]? = some c) :
    StackAt o c data (n + 1) stack := by
  obtain ⟨hp, hlt, hlevel, habove, hstack⟩ := h
  have hopen := height_opener hne hp
  have hclose := height_closer hne hc
  refine hstack.extend (by omega) (by omega) fun k hpk hkn => ?_
  rcases Nat.lt_or_ge n k with hnk | hge
  · obtain rfl : k = n + 1 := by omega
    omega
  · have hk := habove k hpk hge
    omega

theorem StackAt.stray (h : StackAt o c data n []) (hc : data[n]? = some c) :
    StackAt o c data (n + 1) [] := by
  have hclose := height_closer hne hc
  intro k hk
  rcases Nat.lt_or_ge n k with hnk | hge
  · obtain rfl : k = n + 1 := by omega
    exact Int.le_refl _
  · have hle := h k hge
    omega

omit hne in
theorem StackAt.other (h : StackAt o c data n stack) (ha : data[n]? = some a) (ho : a ≠ o)
    (hc : a ≠ c) : StackAt o c data (n + 1) stack := by
  have hstay := height_other ha ho hc
  refine h.extend (Nat.le_succ n) hstay fun k hnk hkn => ?_
  obtain rfl : k = n + 1 := by omega
  exact Int.le_of_eq hstay.symm

/-- The opener that is on top of the stack is the only one that a closing bracket can match. -/
theorem StackAt.top (h : StackAt o c data j stack) (hm : Matched o c data i j) :
    ∃ rest, stack = i :: rest := by
  have hopen := height_opener hne hm.opener
  have hlevel := hm.level
  have hlt := hm.lt
  cases stack with
  | nil =>
    have hle := h i hlt.le
    omega
  | cons p stack =>
    obtain ⟨hp, hpj, he, habove, -⟩ := h
    have hopen' := height_opener hne hp
    rcases Nat.lt_trichotomy p i with hpi | rfl | hip
    · have hle := habove i hpi hlt.le
      omega
    · exact ⟨stack, rfl⟩
    · have hle := hm.above p hip hpj.le
      omega

omit hne in
theorem stackPairs_opener (stack : List Nat) (n : Nat) (rest : List α) :
    stackPairs o c stack n (o :: rest) = stackPairs o c (n :: stack) (n + 1) rest := by
  cases stack <;> simp [stackPairs]

theorem stackPairs_closer (p : Nat) (stack : List Nat) (n : Nat) (rest : List α) :
    stackPairs o c (p :: stack) n (c :: rest) = (p, n) :: stackPairs o c stack (n + 1) rest := by
  simp [stackPairs, hne.symm]

theorem stackPairs_stray (n : Nat) (rest : List α) :
    stackPairs o c [] n (c :: rest) = stackPairs o c [] (n + 1) rest := by
  simp [stackPairs, hne.symm]

omit hne in
theorem stackPairs_other (ho : a ≠ o) (hc : a ≠ c) (stack : List Nat) (n : Nat) (rest : List α) :
    stackPairs o c stack n (a :: rest) = stackPairs o c stack (n + 1) rest := by
  cases stack <;> simp [stackPairs, ho, hc]

theorem mem_stackPairs_at (h : StackAt o c data n stack) :
    (i, j) ∈ stackPairs o c stack n (data.drop n) ↔ n ≤ j ∧ Matched o c data i j := by
  generalize hrest : data.drop n = rest
  induction rest generalizing n stack with
  | nil =>
    refine iff_of_false List.not_mem_nil fun ⟨hle, hm⟩ => ?_
    have hlen := (List.getElem?_eq_some_iff.1 hm.closer).1
    have hdrop := List.drop_eq_nil_iff.1 hrest
    omega
  | cons a rest ih =>
    have ha : data[n]? = some a := by
      have hget : (data.drop n)[0]? = data[n + 0]? := List.getElem?_drop
      rw [hrest, Nat.add_zero] at hget
      exact hget.symm
    have hrest' : data.drop (n + 1) = rest := by
      rw [← List.drop_drop, hrest]
      rfl
    have hskip (hno : ∀ i, ¬ Matched o c data i n) :
        n + 1 ≤ j ∧ Matched o c data i j ↔ n ≤ j ∧ Matched o c data i j := by
      refine and_congr_left fun hm => ⟨fun hle => by omega, fun hle => ?_⟩
      rcases hle.lt_or_eq with hlt | rfl
      · exact hlt
      · exact absurd hm (hno i)
    by_cases ho : a = o
    · subst ho
      rw [stackPairs_opener, ih (h.push ha) hrest']
      refine hskip fun i hm => ?_
      have hcl := hm.closer
      rw [ha] at hcl
      exact hne (Option.some.inj hcl)
    by_cases hc : a = c
    · subst hc
      cases stack with
      | nil =>
        rw [stackPairs_stray hne, ih (h.stray hne ha) hrest']
        refine hskip fun i hm => ?_
        obtain ⟨rest, hnil⟩ := h.top hne hm
        cases hnil
      | cons p stack =>
        rw [stackPairs_closer hne, List.mem_cons, ih (h.pop hne ha) hrest']
        constructor
        · rintro (he | ⟨hle, hm⟩)
          · obtain ⟨rfl, rfl⟩ := Prod.mk.inj he
            exact ⟨Nat.le_refl _, h.matched ha⟩
          · exact ⟨by omega, hm⟩
        · rintro ⟨hle, hm⟩
          rcases hle.lt_or_eq with hlt | rfl
          · exact .inr ⟨hlt, hm⟩
          · obtain ⟨rest, he⟩ := h.top hne hm
            exact .inl (by rw [(List.cons.inj he).1])
    · rw [stackPairs_other ho hc, ih (h.other ha ho hc) hrest']
      refine hskip fun i hm => ?_
      have hcl := hm.closer
      rw [ha] at hcl
      exact hc (Option.some.inj hcl)

theorem mem_stackPairs : (i, j) ∈ stackPairs o c [] 0 data ↔ Matched o c data i j := by
  have hstart : StackAt o c data 0 [] := by
    intro k hk
    obtain rfl := Nat.le_zero.1 hk
    exact Int.le_refl _
  have hmem := mem_stackPairs_at hne hstart (i := i) (j := j)
  rw [List.drop_zero] at hmem
  exact hmem.trans (and_iff_right (Nat.zero_le j))

theorem stackPairs_ge (stack : List Nat) (n : Nat) (rest : List α) :
    ∀ x ∈ stackPairs o c stack n rest, n ≤ x.2 := by
  induction rest generalizing stack n with
  | nil => exact fun x hx => absurd hx List.not_mem_nil
  | cons a rest ih =>
    have hlater (stack : List Nat) : ∀ x ∈ stackPairs o c stack (n + 1) rest, n ≤ x.2 :=
      fun x hx => (Nat.le_succ n).trans (ih stack (n + 1) x hx)
    by_cases ho : a = o
    · rw [ho, stackPairs_opener]
      exact hlater _
    by_cases hc : a = c
    · rw [hc]
      cases stack with
      | nil =>
        rw [stackPairs_stray hne]
        exact hlater _
      | cons p stack =>
        rw [stackPairs_closer hne]
        exact List.forall_mem_cons.2 ⟨Nat.le_refl n, hlater _⟩
    · rw [stackPairs_other ho hc]
      exact hlater _

/-- It finds them in the order of their closing brackets. -/
theorem stackPairs_pairwise (stack : List Nat) (n : Nat) (rest : List α) :
    (stackPairs o c stack n rest).Pairwise fun x y => x.2 < y.2 := by
  induction rest generalizing stack n with
  | nil => exact .nil
  | cons a rest ih =>
    by_cases ho : a = o
    · rw [ho, stackPairs_opener]
      exact ih _ _
    by_cases hc : a = c
    · rw [hc]
      cases stack with
      | nil =>
        rw [stackPairs_stray hne]
        exact ih _ _
      | cons p stack =>
        rw [stackPairs_closer hne]
        exact .cons (fun x hx => stackPairs_ge hne _ _ rest x hx) (ih _ _)
    · rw [stackPairs_other ho hc]
      exact ih _ _

end stack

end Brackets

end Cvise
