import Mathlib.Data.List.Sort
import Mathlib.Data.List.Flatten
import Mathlib.Tactic.ByContra

namespace Cvise
set_option autoImplicit true

variable {α : Type}

/-- A half-open range of positions that carries a value. -/
structure Span (α : Type) where
  left : Nat
  right : Nat
  val : α
deriving DecidableEq

/-- A span `p` takes in a later one when they share a position, or when the later one is empty and
lies within `p`, its two ends included. -/
def Span.Absorbs (p c : Span α) : Prop :=
  max p.left c.left < min p.right c.right ∨
    max p.left c.left = min p.right c.right ∧ c.left = c.right

instance (p c : Span α) : Decidable (p.Absorbs c) := by
  unfold Span.Absorbs; infer_instance

variable {p c : Span α} {xs cs : List (Span α)}

def Span.extend (p c : Span α) : Span α := { p with right := max p.right c.right }

/-- One pass over spans in order, growing the open span `p` while it takes in the next one. -/
def sweepFrom (p : Span α) : List (Span α) → List (Span α)
  | [] => [p]
  | c :: cs => if p.Absorbs c then sweepFrom (p.extend c) cs else p :: sweepFrom c cs

def sweep : List (Span α) → List (Span α)
  | [] => []
  | p :: xs => sweepFrom p xs

/-- The step of the same pass with the result kept newest first. -/
def sweepStep (merged : List (Span α)) (c : Span α) : List (Span α) :=
  match merged with
  | [] => [c]
  | p :: rest => if p.Absorbs c then p.extend c :: rest else c :: p :: rest

theorem foldl_sweepStep_cons (xs : List (Span α)) (p : Span α) (rest : List (Span α)) :
    (xs.foldl sweepStep (p :: rest)).reverse = rest.reverse ++ sweepFrom p xs := by
  induction xs generalizing p rest with
  | nil => simp [sweepFrom]
  | cons c cs ih =>
    rw [List.foldl_cons, sweepFrom, sweepStep]
    split
    · exact ih _ _
    · rw [ih, List.reverse_cons, List.append_assoc]
      rfl

theorem foldl_sweepStep (xs : List (Span α)) : (xs.foldl sweepStep []).reverse = sweep xs := by
  cases xs with
  | nil => rfl
  | cons p xs => exact foldl_sweepStep_cons xs p []

/-- Smaller left end first, at equal left ends the longer span. -/
def Span.Before (a b : Span α) : Prop :=
  a.left < b.left ∨ a.left = b.left ∧ b.right ≤ a.right

def Span.Proper (a : Span α) : Prop := a.left ≤ a.right

/-- Position `i` lies in one of the spans. -/
def Covered (xs : List (Span α)) (i : Nat) : Prop := ∃ x ∈ xs, x.left ≤ i ∧ i < x.right

/-- Position `i` lies strictly inside one of the spans. -/
def Interior (xs : List (Span α)) (i : Nat) : Prop := ∃ x ∈ xs, x.left < i ∧ i < x.right

def StartsAt (xs : List (Span α)) (i : Nat) : Prop := ∃ x ∈ xs, x.left = i

/-- A nonempty span starts at `i`. -/
def OpensAt (xs : List (Span α)) (i : Nat) : Prop := ∃ x ∈ xs, x.left = i ∧ i < x.right

/-- A nonempty span ends at `i`. -/
def ClosesAt (xs : List (Span α)) (i : Nat) : Prop := ∃ x ∈ xs, x.left < i ∧ x.right = i

/-- A merged group starts at `i`: a span starts there, none has `i` strictly inside it, and if only
empty spans start there, no earlier span ends there either. -/
def LeftEnd (xs : List (Span α)) (i : Nat) : Prop :=
  StartsAt xs i ∧ ¬ Interior xs i ∧ (OpensAt xs i ∨ ¬ ClosesAt xs i)

instance (xs : List (Span α)) (i : Nat) : Decidable (Covered xs i) :=
  inferInstanceAs (Decidable (∃ x ∈ xs, x.left ≤ i ∧ i < x.right))

instance (xs : List (Span α)) (i : Nat) : Decidable (Interior xs i) :=
  inferInstanceAs (Decidable (∃ x ∈ xs, x.left < i ∧ i < x.right))

instance (xs : List (Span α)) (i : Nat) : Decidable (StartsAt xs i) :=
  inferInstanceAs (Decidable (∃ x ∈ xs, x.left = i))

instance (xs : List (Span α)) (i : Nat) : Decidable (OpensAt xs i) :=
  inferInstanceAs (Decidable (∃ x ∈ xs, x.left = i ∧ i < x.right))

instance (xs : List (Span α)) (i : Nat) : Decidable (ClosesAt xs i) :=
  inferInstanceAs (Decidable (∃ x ∈ xs, x.left < i ∧ x.right = i))

instance (xs : List (Span α)) (i : Nat) : Decidable (LeftEnd xs i) :=
  inferInstanceAs (Decidable (StartsAt xs i ∧ ¬ Interior xs i ∧ (OpensAt xs i ∨ ¬ ClosesAt xs i)))

@[simp] theorem covered_cons (p : Span α) (xs : List (Span α)) (i : Nat) :
    Covered (p :: xs) i ↔ (p.left ≤ i ∧ i < p.right) ∨ Covered xs i := by
  simp [Covered]

@[simp] theorem interior_cons (p : Span α) (xs : List (Span α)) (i : Nat) :
    Interior (p :: xs) i ↔ (p.left < i ∧ i < p.right) ∨ Interior xs i := by
  simp [Interior]

@[simp] theorem startsAt_cons (p : Span α) (xs : List (Span α)) (i : Nat) :
    StartsAt (p :: xs) i ↔ p.left = i ∨ StartsAt xs i := by
  simp [StartsAt]

@[simp] theorem opensAt_cons (p : Span α) (xs : List (Span α)) (i : Nat) :
    OpensAt (p :: xs) i ↔ (p.left = i ∧ i < p.right) ∨ OpensAt xs i := by
  simp [OpensAt]

@[simp] theorem closesAt_cons (p : Span α) (xs : List (Span α)) (i : Nat) :
    ClosesAt (p :: xs) i ↔ (p.left < i ∧ p.right = i) ∨ ClosesAt xs i := by
  simp [ClosesAt]

/-- Both lists have spans at the same positions, whatever they carry. -/
def SameRanges (xs ys : List (Span α)) : Prop :=
  ∀ l r, (∃ x ∈ xs, x.left = l ∧ x.right = r) ↔ ∃ y ∈ ys, y.left = l ∧ y.right = r

theorem SameRanges.exists_iff {ys : List (Span α)} (h : SameRanges xs ys) (P : Nat → Nat → Prop) :
    (∃ x ∈ xs, P x.left x.right) ↔ ∃ y ∈ ys, P y.left y.right := by
  constructor
  · intro ⟨x, hx, hP⟩
    obtain ⟨y, hy, hl, hr⟩ := (h x.left x.right).1 ⟨x, hx, rfl, rfl⟩
    exact ⟨y, hy, hl ▸ hr ▸ hP⟩
  · intro ⟨y, hy, hP⟩
    obtain ⟨x, hx, hl, hr⟩ := (h y.left y.right).2 ⟨y, hy, rfl, rfl⟩
    exact ⟨x, hx, hl ▸ hr ▸ hP⟩

theorem SameRanges.covered {ys : List (Span α)} (h : SameRanges xs ys) (i : Nat) :
    Covered xs i ↔ Covered ys i := h.exists_iff fun l r => l ≤ i ∧ i < r

theorem SameRanges.leftEnd {ys : List (Span α)} (h : SameRanges xs ys) (i : Nat) :
    LeftEnd xs i ↔ LeftEnd ys i := by
  have hs : StartsAt xs i ↔ StartsAt ys i := h.exists_iff fun l _ => l = i
  have hi : Interior xs i ↔ Interior ys i := h.exists_iff fun l r => l < i ∧ i < r
  have ho : OpensAt xs i ↔ OpensAt ys i := h.exists_iff fun l r => l = i ∧ i < r
  have hc : ClosesAt xs i ↔ ClosesAt ys i := h.exists_iff fun l r => l < i ∧ r = i
  rw [LeftEnd, LeftEnd, hs, hi, ho, hc]

def firstAt (xs : List (Span α)) (i : Nat) : Option (Span α) := xs.find? (·.left = i)

theorem startsAt_after (h : ∀ x ∈ xs, Span.Before c x) (hs : StartsAt xs i) : c.left ≤ i := by
  obtain ⟨x, hx, rfl⟩ := hs
  rcases h x hx with h | h <;> omega

theorem opensAt_after (h : ∀ x ∈ xs, Span.Before c x) (ho : OpensAt xs i) (hc : c.left = i) :
    i < c.right := by
  obtain ⟨x, hx, hl, hr⟩ := ho
  rcases h x hx with h | h <;> omega

theorem OpensAt.startsAt (h : OpensAt xs i) : StartsAt xs i := by
  obtain ⟨x, hx, hl, _⟩ := h
  exact ⟨x, hx, hl⟩

theorem leftEnd_absorb (hp : p.Proper) (hc : c.Proper) (hpc : Span.Before p c)
    (hcs : ∀ x ∈ cs, Span.Before c x) (ha : p.Absorbs c) (i : Nat) :
    LeftEnd (p :: c :: cs) i ↔ LeftEnd (p.extend c :: cs) i := by
  have hs := startsAt_after (i := i) hcs
  have ho := opensAt_after (i := i) hcs
  have hos : OpensAt cs i → StartsAt cs i := OpensAt.startsAt
  simp only [LeftEnd, startsAt_cons, interior_cons, opensAt_cons, closesAt_cons, Span.extend]
  simp only [Span.Proper, Span.Before, Span.Absorbs] at hp hc hpc ha
  grind

theorem Span.Before.right_le (hp : p.Proper) (hc : c.Proper) (hpc : Span.Before p c)
    (ha : ¬ p.Absorbs c) : p.right ≤ c.left ∧ p.left < c.left ∧ (c.left = c.right → p.right < c.left) := by
  simp only [Span.Proper, Span.Before, Span.Absorbs] at *
  omega

theorem leftEnd_skip (hp : p.Proper) (hc : c.Proper) (hpc : Span.Before p c)
    (hcs : ∀ x ∈ cs, Span.Before c x) (ha : ¬ p.Absorbs c) (i : Nat) :
    LeftEnd (p :: c :: cs) i ↔ p.left = i ∨ LeftEnd (c :: cs) i := by
  obtain ⟨hr, hl, he⟩ := hpc.right_le hp hc ha
  have hs := startsAt_after (i := i) hcs
  have hi : Interior cs i → c.left < i := by
    rintro ⟨x, hx, hxl, _⟩
    rcases hcs x hx with h | h <;> omega
  have hcl : ClosesAt cs i → c.left < i := by
    rintro ⟨x, hx, hxl, _⟩
    rcases hcs x hx with h | h <;> omega
  simp only [LeftEnd, startsAt_cons, interior_cons, opensAt_cons, closesAt_cons]
  simp only [Span.Proper] at hp hc
  grind

theorem firstAt_cons (p : Span α) (xs : List (Span α)) (i : Nat) :
    firstAt (p :: xs) i = if p.left = i then some p else firstAt xs i := by
  simp only [firstAt, List.find?_cons]
  split <;> simp_all

theorem firstAt_isSome (h : StartsAt xs i) : ∃ x, firstAt xs i = some x := by
  obtain ⟨x, hx, hl⟩ := h
  exact Option.isSome_iff_exists.1 (List.find?_isSome.2 ⟨x, hx, by simp [hl]⟩)

/-- No group starts where a span begins that was taken in. -/
theorem not_leftEnd_absorbed (hc : c.Proper) (hpc : Span.Before p c)
    (hcs : ∀ x ∈ cs, Span.Before c x) (ha : p.Absorbs c) (hl : p.left ≠ c.left) :
    ¬ LeftEnd (p :: c :: cs) c.left := by
  have ho := opensAt_after (i := c.left) hcs
  simp only [LeftEnd, interior_cons, opensAt_cons, closesAt_cons]
  simp only [Span.Proper, Span.Before, Span.Absorbs] at hc hpc ha
  grind

theorem Span.Before.extend (h : ∀ x ∈ xs, Span.Before p x) :
    ∀ x ∈ xs, Span.Before (p.extend c) x := by
  intro x hx
  rcases h x hx with h | ⟨h, hr⟩
  · exact .inl h
  · exact .inr ⟨h, hr.trans (Nat.le_max_left _ _)⟩

theorem leftEnd_singleton (p : Span α) (i : Nat) : LeftEnd [p] i ↔ p.left = i := by
  simp only [LeftEnd, StartsAt, Interior, OpensAt, ClosesAt, List.mem_singleton, exists_eq_left]
  omega

/-- What the pass returns: the groups of the input, each with the value of its first span. -/
theorem mem_sweepFrom (hp : p.Proper) (hxs : ∀ x ∈ xs, x.Proper)
    (hs : (p :: xs).Pairwise Span.Before) (i : Nat) (v : α) :
    (∃ r, ⟨i, r, v⟩ ∈ sweepFrom p xs) ↔
      LeftEnd (p :: xs) i ∧ (firstAt (p :: xs) i).map Span.val = some v := by
  induction xs generalizing p with
  | nil =>
    rw [leftEnd_singleton, firstAt_cons]
    constructor
    · rintro ⟨r, hr⟩
      rw [sweepFrom, List.mem_singleton] at hr
      subst hr
      simp
    · rintro ⟨rfl, hv⟩
      rw [if_pos rfl, Option.map_some, Option.some.injEq] at hv
      subst hv
      exact ⟨p.right, List.mem_singleton.2 rfl⟩
  | cons c cs ih =>
    obtain ⟨hp', hs'⟩ := List.pairwise_cons.1 hs
    obtain ⟨hcs, hss⟩ := List.pairwise_cons.1 hs'
    have hpc := hp' c List.mem_cons_self
    have hc := hxs c List.mem_cons_self
    have hxs' : ∀ x ∈ cs, x.Proper := fun x hx => hxs x (List.mem_cons_of_mem _ hx)
    rw [sweepFrom]
    split
    case isTrue ha =>
      have hpe : (p.extend c).Proper := hp.trans (Nat.le_max_left _ _)
      have hbe := Span.Before.extend (c := c) fun x hx => hp' x (List.mem_cons_of_mem _ hx)
      rw [ih hpe hxs' (List.pairwise_cons.2 ⟨hbe, hss⟩), ← leftEnd_absorb hp hc hpc hcs ha]
      refine and_congr_right fun hle => ?_
      rw [firstAt_cons, firstAt_cons, firstAt_cons]
      by_cases hi : p.left = i
      · have hi' : (p.extend c).left = i := hi
        rw [if_pos hi, if_pos hi']
        rfl
      · have hi' : (p.extend c).left ≠ i := hi
        have hci : c.left ≠ i := by
          rintro rfl
          exact not_leftEnd_absorbed hc hpc hcs ha hi hle
        rw [if_neg hi, if_neg hi', if_neg hci]
    case isFalse ha =>
      obtain ⟨_, hlt, _⟩ := hpc.right_le hp hc ha
      rw [leftEnd_skip hp hc hpc hcs ha, firstAt_cons]
      simp only [List.mem_cons, exists_or, ih hc hxs' hs']
      by_cases hi : p.left = i
      · have hn : ¬ LeftEnd (c :: cs) i := by
          rintro ⟨hst, _⟩
          have := startsAt_cons c cs i
          have := startsAt_after (i := i) hcs
          grind
        rw [if_pos hi]
        simp only [hn, false_and, or_false, hi, true_and, Option.map_some,
          Option.some.injEq]
        constructor
        · rintro ⟨r, rfl⟩
          rfl
        · rintro rfl
          exact ⟨p.right, by cases p; simp_all⟩
      · rw [if_neg hi]
        simp only [hi, false_or]
        constructor
        · rintro (⟨r, rfl⟩ | h)
          · exact absurd rfl hi
          · exact h
        · exact .inr

theorem covered_sweepFrom (hp : p.Proper) (hxs : ∀ x ∈ xs, x.Proper)
    (hs : (p :: xs).Pairwise Span.Before) (i : Nat) :
    Covered (sweepFrom p xs) i ↔ Covered (p :: xs) i := by
  induction xs generalizing p with
  | nil => rfl
  | cons c cs ih =>
    obtain ⟨hp', hs'⟩ := List.pairwise_cons.1 hs
    have hpc := hp' c List.mem_cons_self
    have hc := hxs c List.mem_cons_self
    have hxs' : ∀ x ∈ cs, x.Proper := fun x hx => hxs x (List.mem_cons_of_mem _ hx)
    rw [sweepFrom]
    split
    case isTrue ha =>
      have hpe : (p.extend c).Proper := hp.trans (Nat.le_max_left _ _)
      have hbe := Span.Before.extend (c := c) fun x hx => hp' x (List.mem_cons_of_mem _ hx)
      rw [ih hpe hxs' (List.pairwise_cons.2 ⟨hbe, (List.pairwise_cons.1 hs').2⟩)]
      simp only [covered_cons, ← or_assoc]
      refine or_congr_left ?_
      simp only [Span.Proper, Span.Before, Span.Absorbs, Span.extend] at hp hc hpc ha ⊢
      omega
    case isFalse ha => rw [covered_cons, ih hc hxs' hs', ← covered_cons]

/-- Spans that follow one another without overlap. -/
def Separated (ms : List (Span α)) : Prop :=
  (∀ m ∈ ms, m.Proper) ∧ ms.Pairwise fun a b => a.right ≤ b.left ∧ a.left < b.left

theorem sweepFrom_separated (hp : p.Proper) (hxs : ∀ x ∈ xs, x.Proper)
    (hs : (p :: xs).Pairwise Span.Before) :
    Separated (sweepFrom p xs) ∧ ∀ m ∈ sweepFrom p xs, p.left ≤ m.left := by
  induction xs generalizing p with
  | nil => simp [Separated, sweepFrom, hp]
  | cons c cs ih =>
    obtain ⟨hp', hs'⟩ := List.pairwise_cons.1 hs
    have hpc := hp' c List.mem_cons_self
    have hc := hxs c List.mem_cons_self
    have hxs' : ∀ x ∈ cs, x.Proper := fun x hx => hxs x (List.mem_cons_of_mem _ hx)
    rw [sweepFrom]
    split
    case isTrue ha =>
      have hpe : (p.extend c).Proper := hp.trans (Nat.le_max_left _ _)
      have hbe := Span.Before.extend (c := c) fun x hx => hp' x (List.mem_cons_of_mem _ hx)
      exact ih hpe hxs' (List.pairwise_cons.2 ⟨hbe, (List.pairwise_cons.1 hs').2⟩)
    case isFalse ha =>
      obtain ⟨hr, hl, _⟩ := hpc.right_le hp hc ha
      obtain ⟨⟨hm, hpw⟩, hle⟩ := ih hc hxs' hs'
      refine ⟨⟨?_, List.pairwise_cons.2 ⟨?_, hpw⟩⟩, ?_⟩
      · exact List.forall_mem_cons.2 ⟨hp, hm⟩
      · intro m hm
        have := hle m hm
        omega
      · refine List.forall_mem_cons.2 ⟨le_rfl, fun m hm => ?_⟩
        have := hle m hm
        omega

theorem right_sweepFrom (hp : p.right ≤ n) (hxs : ∀ x ∈ xs, x.right ≤ n) :
    ∀ m ∈ sweepFrom p xs, m.right ≤ n := by
  induction xs generalizing p with
  | nil => simpa [sweepFrom] using hp
  | cons c cs ih =>
    obtain ⟨hc, hcs⟩ := List.forall_mem_cons.1 hxs
    rw [sweepFrom]
    split
    · exact ih (Nat.max_le.2 ⟨hp, hc⟩) hcs
    · exact List.forall_mem_cons.2 ⟨hp, ih hc hcs⟩

theorem le_right_sweepFrom (p : Span α) (xs : List (Span α)) :
    ∀ x ∈ p :: xs, ∃ m ∈ sweepFrom p xs, x.right ≤ m.right := by
  induction xs generalizing p with
  | nil => simp [sweepFrom]
  | cons c cs ih =>
    rw [sweepFrom]
    split
    · obtain ⟨hp, hcs⟩ := List.forall_mem_cons.1 (ih (p.extend c))
      have hmax : ∀ n, n ≤ (p.extend c).right →
          ∃ m ∈ sweepFrom (p.extend c) cs, n ≤ m.right := by
        intro n hn
        obtain ⟨m, hm, hle⟩ := hp
        exact ⟨m, hm, hn.trans hle⟩
      exact List.forall_mem_cons.2 ⟨hmax _ (Nat.le_max_left _ _),
        List.forall_mem_cons.2 ⟨hmax _ (Nat.le_max_right _ _), hcs⟩⟩
    · intro x hx
      rcases List.mem_cons.1 hx with rfl | hx
      · exact ⟨x, List.mem_cons_self, le_rfl⟩
      · obtain ⟨m, hm, hle⟩ := ih c x hx
        exact ⟨m, List.mem_cons_of_mem _ hm, hle⟩

theorem right_le_of_sweep (h : ∀ m ∈ sweep xs, m.right ≤ n) : ∀ x ∈ xs, x.right ≤ n := by
  intro x hx
  cases xs with
  | nil => cases hx
  | cons p xs =>
    obtain ⟨m, hm, hle⟩ := le_right_sweepFrom p xs x hx
    exact hle.trans (h m hm)

theorem sweep_separated (hp : ∀ x ∈ xs, x.Proper) (hs : xs.Pairwise Span.Before) :
    Separated (sweep xs) := by
  cases xs with
  | nil => exact ⟨by simp [sweep], List.Pairwise.nil⟩
  | cons p xs =>
    obtain ⟨hp, hxs⟩ := List.forall_mem_cons.1 hp
    exact (sweepFrom_separated hp hxs hs).1

theorem mem_sweep (hp : ∀ x ∈ xs, x.Proper) (hs : xs.Pairwise Span.Before) (i : Nat) (v : α) :
    (∃ r, ⟨i, r, v⟩ ∈ sweep xs) ↔ LeftEnd xs i ∧ (firstAt xs i).map Span.val = some v := by
  cases xs with
  | nil => simp [sweep, firstAt]
  | cons p xs =>
    obtain ⟨hp, hxs⟩ := List.forall_mem_cons.1 hp
    exact mem_sweepFrom hp hxs hs i v

theorem right_sweep (h : ∀ x ∈ xs, x.right ≤ n) : ∀ m ∈ sweep xs, m.right ≤ n := by
  cases xs with
  | nil => simp [sweep]
  | cons p xs =>
    obtain ⟨hp, hxs⟩ := List.forall_mem_cons.1 h
    exact right_sweepFrom hp hxs

/-- The groups start exactly at the left ends. -/
theorem startsAt_sweep (hp : ∀ x ∈ xs, x.Proper) (hs : xs.Pairwise Span.Before) (i : Nat) :
    StartsAt (sweep xs) i ↔ LeftEnd xs i := by
  have hm := mem_sweep hp hs i
  constructor
  · intro ⟨x, hx, hl⟩
    exact ((hm x.val).1 ⟨x.right, hl ▸ hx⟩).1
  · intro hle
    obtain ⟨x, hx⟩ := firstAt_isSome hle.1
    obtain ⟨r, hr⟩ := (hm x.val).2 ⟨hle, congrArg (Option.map Span.val) hx⟩
    exact ⟨_, hr, rfl⟩

/-- Copy the data from `start` on, replacing each span by the text `f` gives its value. -/
def splice (f : α → List β) (data : List β) (start : Nat) : List (Span α) → List β
  | [] => data.drop start
  | m :: ms => (data.take m.left).drop start ++ f m.val ++ splice f data m.right ms

/-- The text of the group that starts at position `i`, if one does. -/
def groupText (f : α → List β) (xs : List (Span α)) (i : Nat) : List β :=
  if LeftEnd xs i then ((firstAt xs i).map fun x => f x.val).getD [] else []

/-- What becomes of position `i`: the text of the group that starts there, and then the datum
itself unless a span covers it. -/
def cell (f : α → List β) (data : List β) (xs : List (Span α)) (i : Nat) : List β :=
  groupText f xs i ++ if Covered xs i then [] else data[i]?.toList

/-- The reference semantics of replacing spans: position by position, the end included. -/
def rewriteSpans (f : α → List β) (data : List β) (xs : List (Span α)) : List β :=
  (List.range (data.length + 1)).flatMap (cell f data xs)

variable {β : Type} {f : α → List β} {data : List β}

/-- The same ranges with other values. -/
def Span.map (g : α → γ) (s : Span α) : Span γ := ⟨s.left, s.right, g s.val⟩

theorem covered_map (g : α → γ) (xs : List (Span α)) (i : Nat) :
    Covered (xs.map (Span.map g)) i ↔ Covered xs i := by
  simp [Covered, Span.map]

theorem groupText_map {γ : Type} (f : γ → List β) (g : α → γ) (xs : List (Span α)) (i : Nat) :
    groupText f (xs.map (Span.map g)) i = groupText (f ∘ g) xs i := by
  have hfirst : firstAt (xs.map (Span.map g)) i = (firstAt xs i).map (Span.map g) := by
    rw [firstAt, List.find?_map]
    rfl
  have hleft : LeftEnd (xs.map (Span.map g)) i ↔ LeftEnd xs i := by
    simp [LeftEnd, StartsAt, Interior, OpensAt, ClosesAt, Span.map]
  simp only [groupText, hleft, hfirst, Option.map_map]
  rfl

theorem cell_map {γ : Type} (f : γ → List β) (g : α → γ) (data : List β) (xs : List (Span α))
    (i : Nat) : cell f data (xs.map (Span.map g)) i = cell (f ∘ g) data xs i := by
  simp only [cell, groupText_map, covered_map]

theorem rewriteSpans_map {γ : Type} (f : γ → List β) (g : α → γ) (data : List β)
    (xs : List (Span α)) :
    rewriteSpans f data (xs.map (Span.map g)) = rewriteSpans (f ∘ g) data xs :=
  List.flatMap_congr fun i _ => cell_map f g data xs i

theorem range'_split {a b c : Nat} (hab : a ≤ b) (hbc : b ≤ c) :
    List.range' a (c - a) = List.range' a (b - a) ++ List.range' b (c - b) := by
  have happ := List.range'_append_1 (s := a) (m := b - a) (n := c - b)
  rw [show a + (b - a) = b by omega, show b - a + (c - b) = c - a by omega] at happ
  exact happ.symm

theorem flatMap_getElem? (data : List β) (a n : Nat) :
    (List.range' a n).flatMap (fun i => data[i]?.toList) = (data.take (a + n)).drop a := by
  induction n generalizing a with
  | zero => simp
  | succ n ih =>
    rw [List.range'_succ, List.flatMap_cons, ih, Nat.add_right_comm, Nat.add_assoc]
    cases h : data[a]? with
    | none =>
      rw [List.getElem?_eq_none_iff] at h
      rw [List.drop_eq_nil_of_le (by simp; omega), List.drop_eq_nil_of_le (by simp; omega)]
      rfl
    | some x =>
      obtain ⟨ha, rfl⟩ := List.getElem?_eq_some_iff.1 h
      rw [List.drop_eq_getElem_cons (i := a) (by simp; omega)]
      simp

/-- What position `i` yields when the spans are already separate. -/
def spliceCell (f : α → List β) (data : List β) (ms : List (Span α)) (i : Nat) : List β :=
  ((firstAt ms i).map fun x => f x.val).getD [] ++ if Covered ms i then [] else data[i]?.toList

theorem firstAt_eq_none (h : ∀ m ∈ xs, i < m.left) : firstAt xs i = none :=
  List.find?_eq_none.2 fun m hm => by
    have := h m hm
    simp only [decide_eq_true_eq]
    omega

theorem not_covered_of_lt (h : ∀ m ∈ xs, i < m.left) : ¬ Covered xs i := by
  rintro ⟨m, hm, hl, _⟩
  have := h m hm
  omega

theorem spliceCell_before {ms : List (Span α)} (h : ∀ m ∈ ms, i < m.left) :
    spliceCell f data ms i = data[i]?.toList := by
  rw [spliceCell, firstAt_eq_none h, if_neg (not_covered_of_lt h)]
  rfl

theorem spliceCell_after {m : Span α} {ms : List (Span α)} (hl : m.left < i)
    (hr : m.right ≤ i) : spliceCell f data (m :: ms) i = spliceCell f data ms i := by
  have hc : Covered (m :: ms) i ↔ Covered ms i := by
    rw [covered_cons, or_iff_right (by omega)]
  simp only [spliceCell, firstAt_cons, if_neg (show m.left ≠ i by omega), hc]

theorem spliceCell_inside {m : Span α} {ms : List (Span α)} (hl : m.left < i)
    (hr : i < m.right) (h : ∀ x ∈ ms, m.right ≤ x.left) : spliceCell f data (m :: ms) i = [] := by
  have hn : firstAt ms i = none := firstAt_eq_none fun x hx => hr.trans_le (h x hx)
  have hc : Covered (m :: ms) i := (covered_cons m ms i).2 (.inl ⟨hl.le, hr⟩)
  rw [spliceCell, firstAt_cons, if_neg (show m.left ≠ i by omega), hn, if_pos hc]
  rfl

/-- The head span yields its value, and the datum at its left end if it is empty. -/
theorem flatMap_spliceCell_head {m : Span α} {ms : List (Span α)} (hm : m.Proper)
    (h : ∀ x ∈ ms, m.right ≤ x.left ∧ m.left < x.left) (hl : m.left < k) (hr : m.right ≤ k) :
    (List.range' m.left (k - m.left)).flatMap (spliceCell f data (m :: ms)) =
      f m.val ++ (List.range' m.right (k - m.right)).flatMap (spliceCell f data ms) := by
  simp only [Span.Proper] at hm
  have hcons : List.range' m.left (k - m.left) =
      m.left :: List.range' (m.left + 1) (k - m.left - 1) := by
    rw [← List.range'_succ, show k - m.left - 1 + 1 = k - m.left by omega]
  have htail : ∀ i, m.left < i → m.right ≤ i →
      spliceCell f data (m :: ms) i = spliceCell f data ms i := fun i => spliceCell_after
  rw [hcons, List.flatMap_cons]
  rcases hm.lt_or_eq with hlt | heq
  · have hhead : spliceCell f data (m :: ms) m.left = f m.val := by
      have hc : Covered (m :: ms) m.left := (covered_cons m ms _).2 (.inl ⟨le_rfl, hlt⟩)
      rw [spliceCell, firstAt_cons, if_pos rfl, if_pos hc]
      simp
    have hin : (List.range' (m.left + 1) (m.right - (m.left + 1))).flatMap
        (spliceCell f data (m :: ms)) = [] := by
      rw [List.flatMap_eq_nil_iff]
      intro i hi
      rw [List.mem_range'_1] at hi
      exact spliceCell_inside (by omega) (by omega) fun x hx => (h x hx).1
    rw [hhead, Nat.sub_sub, range'_split hlt hr, List.flatMap_append, hin, List.nil_append]
    congr 1
    refine List.flatMap_congr fun i hi => ?_
    rw [List.mem_range'_1] at hi
    exact htail i (by omega) (by omega)
  · have hhead : spliceCell f data (m :: ms) m.left = f m.val ++ spliceCell f data ms m.left := by
      have hc : Covered (m :: ms) m.left ↔ Covered ms m.left := by
        rw [covered_cons, or_iff_right (by omega)]
      rw [spliceCell, spliceCell, firstAt_cons, if_pos rfl, firstAt_eq_none fun x hx => (h x hx).2]
      simp [hc]
    rw [hhead, List.append_assoc, ← heq, hcons, List.flatMap_cons]
    congr 2
    refine List.flatMap_congr fun i hi => ?_
    rw [List.mem_range'_1] at hi
    exact htail i (by omega) (by omega)

theorem flatMap_spliceCell_before {ms : List (Span α)} (h : ∀ m ∈ ms, k ≤ m.left) (hk : start ≤ k) :
    (List.range' start (k - start)).flatMap (spliceCell f data ms) = (data.take k).drop start := by
  have he := flatMap_getElem? data start (k - start)
  rw [show start + (k - start) = k by omega] at he
  rw [← he]
  refine List.flatMap_congr fun i hi => ?_
  rw [List.mem_range'_1] at hi
  refine spliceCell_before fun m hm => ?_
  have := h m hm
  omega

theorem splice_eq {ms : List (Span α)} (hs : Separated ms)
    (hl : ∀ m ∈ ms, start ≤ m.left) (hr : ∀ m ∈ ms, m.right ≤ data.length)
    (hst : start ≤ data.length) :
    splice f data start ms =
      (List.range' start (data.length + 1 - start)).flatMap (spliceCell f data ms) := by
  induction ms generalizing start with
  | nil =>
    rw [flatMap_spliceCell_before (by simp) (by omega), splice, List.take_of_length_le (by omega)]
  | cons m ms ih =>
    obtain ⟨hm, hms⟩ := List.forall_mem_cons.1 hs.1
    obtain ⟨hb, hpw⟩ := List.pairwise_cons.1 hs.2
    obtain ⟨hml, _⟩ := List.forall_mem_cons.1 hl
    obtain ⟨hmr, hrs⟩ := List.forall_mem_cons.1 hr
    have hle : m.left ≤ data.length := hm.trans hmr
    have hbefore : ∀ x ∈ m :: ms, m.left ≤ x.left :=
      List.forall_mem_cons.2 ⟨le_rfl, fun x hx => (hb x hx).2.le⟩
    rw [splice, ih ⟨hms, hpw⟩ (fun x hx => (hb x hx).1) hrs hmr, List.append_assoc,
      ← flatMap_spliceCell_head hm hb (Nat.lt_succ_of_le hle) (Nat.le_succ_of_le hmr),
      range'_split hml (Nat.le_succ_of_le hle), List.flatMap_append, flatMap_spliceCell_before hbefore hml]

/-- A separate list has at most one span at each left end. -/
theorem Separated.mem_iff_firstAt {ms : List (Span α)} (hs : Separated ms) (i : Nat) (v : α) :
    (∃ r, ⟨i, r, v⟩ ∈ ms) ↔ (firstAt ms i).map Span.val = some v := by
  induction ms with
  | nil => simp [firstAt]
  | cons m ms ih =>
    obtain ⟨hb, hpw⟩ := List.pairwise_cons.1 hs.2
    have hs' : Separated ms := ⟨(List.forall_mem_cons.1 hs.1).2, hpw⟩
    rw [firstAt_cons]
    by_cases hi : m.left = i
    · rw [if_pos hi, Option.map_some, Option.some.injEq]
      subst hi
      constructor
      · rintro ⟨r, hr⟩
        rcases List.mem_cons.1 hr with he | hr
        · exact congrArg Span.val he.symm
        · exact absurd (hb _ hr).2 (lt_irrefl _)
      · rintro rfl
        exact ⟨m.right, List.mem_cons_self⟩
    · rw [if_neg hi, ← ih hs']
      refine exists_congr fun r => ?_
      rw [List.mem_cons, or_iff_right]
      rintro rfl
      exact hi rfl

theorem firstAt_sweepFrom (hp : p.Proper) (hxs : ∀ x ∈ xs, x.Proper)
    (hs : (p :: xs).Pairwise Span.Before) (i : Nat) :
    (firstAt (sweepFrom p xs) i).map Span.val =
      if LeftEnd (p :: xs) i then (firstAt (p :: xs) i).map Span.val else none := by
  refine Option.ext fun v => ?_
  rw [← (sweepFrom_separated hp hxs hs).1.mem_iff_firstAt, mem_sweepFrom hp hxs hs]
  split <;> simp_all

theorem covered_sweep {xs : List (Span α)} (hp : ∀ x ∈ xs, x.Proper)
    (hs : xs.Pairwise Span.Before) (i : Nat) : Covered (sweep xs) i ↔ Covered xs i := by
  cases xs with
  | nil => rfl
  | cons p xs =>
    obtain ⟨hp, hxs⟩ := List.forall_mem_cons.1 hp
    exact covered_sweepFrom hp hxs hs i

theorem text_sweep {xs : List (Span α)} (hp : ∀ x ∈ xs, x.Proper)
    (hs : xs.Pairwise Span.Before) (i : Nat) :
    ((firstAt (sweep xs) i).map fun x => f x.val).getD [] = groupText f xs i := by
  cases xs with
  | nil => simp [sweep, groupText, firstAt]
  | cons p xs =>
    obtain ⟨hp, hxs⟩ := List.forall_mem_cons.1 hp
    have he := congrArg (Option.map f) (firstAt_sweepFrom hp hxs hs i)
    rw [Option.map_map] at he
    rw [sweep, groupText]
    change (Option.map (f ∘ Span.val) _).getD [] = _
    rw [he]
    split
    · rw [Option.map_map]
      rfl
    · rfl

theorem spliceCell_sweep {xs : List (Span α)} (hp : ∀ x ∈ xs, x.Proper)
    (hs : xs.Pairwise Span.Before) (i : Nat) :
    spliceCell f data (sweep xs) i = cell f data xs i := by
  simp only [spliceCell, cell, text_sweep hp hs, covered_sweep hp hs]

/-- Replacing the merged spans one after another gives the reference semantics of the input. -/
theorem splice_sweep {xs : List (Span α)} (hp : ∀ x ∈ xs, x.Proper)
    (hs : xs.Pairwise Span.Before) (hr : ∀ x ∈ xs, x.right ≤ data.length) :
    splice f data 0 (sweep xs) = rewriteSpans f data xs := by
  rw [splice_eq (sweep_separated hp hs) (fun m _ => Nat.zero_le _) (right_sweep hr) (Nat.zero_le _),
    rewriteSpans, List.range_eq_range', Nat.sub_zero]
  exact List.flatMap_congr fun i _ => spliceCell_sweep hp hs i

end Cvise
