import Mathlib.Data.List.Basic
import Mathlib.Logic.Relation
import Mathlib.Order.Basic
import Mathlib.Data.Nat.Basic

namespace Cvise
set_option autoImplicit true

/-- Regular expressions as a backtracking matcher takes them: the first alternative is tried first,
and a repetition is greedy or not. Zero-width tests see the text and the position. -/
inductive Regexp (α : Type) where
  | empty
  | one (p : α → Bool)
  | andThen (a b : Regexp α)
  | orElse (a b : Regexp α)
  | star (greedy : Bool) (a : Regexp α)
  | group (name : Nat) (a : Regexp α)
  | notAhead (a : Regexp α)
  | look (p : List α → Nat → Bool)

/-- The groups that have taken part in a match, the last one first: name, start and stop. -/
abbrev GroupSpans := List (Nat × Nat × Nat)

namespace Regexp

variable {α : Type}

/-- Up to `n` repetitions, each of which must get ahead. -/
def iterate (greedy : Bool) (f : Nat → GroupSpans → List (Nat × GroupSpans)) :
    Nat → Nat → GroupSpans → List (Nat × GroupSpans)
  | 0, i, c => [(i, c)]
  | n + 1, i, c =>
    let more := (f i c).flatMap fun r => if i < r.1 then iterate greedy f n r.1 r.2 else []
    if greedy then more ++ [(i, c)] else (i, c) :: more

/-- All ways to match from a position on, in the order in which they are tried: where each ends, and
its groups. -/
def runs (text : List α) : Regexp α → Nat → GroupSpans → List (Nat × GroupSpans)
  | .empty, i, c => [(i, c)]
  | .one p, i, c => if text[i]?.any p then [(i + 1, c)] else []
  | .andThen a b, i, c => (runs text a i c).flatMap fun r => runs text b r.1 r.2
  | .orElse a b, i, c => runs text a i c ++ runs text b i c
  | .star greedy a, i, c => iterate greedy (runs text a) text.length i c
  | .group name a, i, c => (runs text a i c).map fun r => (r.1, (name, i, r.1) :: r.2)
  | .notAhead a, i, c => if (runs text a i c).isEmpty then [(i, c)] else []
  | .look p, i, c => if p text i then [(i, c)] else []

theorem runs_andThen (text : List α) (a b : Regexp α) (i : Nat) (c : GroupSpans) :
    runs text (.andThen a b) i c = (runs text a i c).flatMap fun r => runs text b r.1 r.2 := rfl

/-- That the text between two positions can be matched. -/
def Spans (text : List α) : Regexp α → Nat → Nat → Prop
  | .empty, i, j => j = i
  | .one p, i, j => text[i]?.any p = true ∧ j = i + 1
  | .andThen a b, i, j => ∃ k, Spans text a i k ∧ Spans text b k j
  | .orElse a b, i, j => Spans text a i j ∨ Spans text b i j
  | .star _ a, i, j => Relation.ReflTransGen (fun i j => Spans text a i j ∧ i < j) i j
  | .group _ a, i, j => Spans text a i j
  | .notAhead a, i, j => (¬ ∃ k, Spans text a i k) ∧ j = i
  | .look p, i, j => p text i = true ∧ j = i

theorem any_iff {text : List α} {p : α → Bool} {i : Nat} :
    text[i]?.any p = true ↔ ∃ x, text[i]? = some x ∧ p x = true := by
  cases text[i]? with
  | none => simp
  | some x => simp

theorem any_lt {text : List α} {p : α → Bool} {i : Nat} (h : text[i]?.any p = true) :
    i < text.length := by
  obtain ⟨x, hx, -⟩ := any_iff.1 h
  exact (List.getElem?_eq_some_iff.1 hx).1

theorem iterate_iff {f : Nat → GroupSpans → List (Nat × GroupSpans)} {R : Nat → Nat → Prop}
    (hf : ∀ i c j, (∃ c', (j, c') ∈ f i c) ↔ R i j) (hlen : ∀ i j, R i j → i < j → j ≤ len)
    (h : len ≤ i + n) :
    (∃ c', (j, c') ∈ iterate greedy f n i c) ↔
      Relation.ReflTransGen (fun i j => R i j ∧ i < j) i j := by
  rw [Relation.ReflTransGen.cases_head_iff]
  induction n generalizing i c with
  | zero =>
    simp only [iterate, List.mem_singleton, Prod.mk.injEq]
    constructor
    · rintro ⟨c', rfl, -⟩
      exact .inl rfl
    · rintro (rfl | ⟨k, ⟨hk, hlt⟩, -⟩)
      · exact ⟨c, rfl, rfl⟩
      · have hle := hlen _ _ hk hlt
        omega
  | succ n ih =>
    have hmore : (∃ c', (j, c') ∈ (f i c).flatMap fun r =>
          if i < r.1 then iterate greedy f n r.1 r.2 else []) ↔
        ∃ k, (R i k ∧ i < k) ∧ Relation.ReflTransGen (fun i j => R i j ∧ i < j) k j := by
      simp only [List.mem_flatMap, Prod.exists]
      constructor
      · rintro ⟨c', k, c'', hk, hmem⟩
        split at hmem
        · rename_i hlt
          refine ⟨k, ⟨(hf i c k).1 ⟨c'', hk⟩, hlt⟩, ?_⟩
          rw [Relation.ReflTransGen.cases_head_iff]
          exact (ih (by omega)).1 ⟨c', hmem⟩
        · cases hmem
      · rintro ⟨k, ⟨hk, hlt⟩, hrest⟩
        obtain ⟨c'', hc''⟩ := (hf i c k).2 hk
        rw [Relation.ReflTransGen.cases_head_iff] at hrest
        have hmem : ∃ c', (j, c') ∈ iterate greedy f n k c'' := (ih (by omega)).2 hrest
        obtain ⟨c', hmem⟩ := hmem
        refine ⟨c', k, c'', hc'', ?_⟩
        rw [if_pos hlt]
        exact hmem
    rw [← hmore, iterate]
    cases greedy with
    | true =>
      simp only [if_true, List.mem_append, List.mem_singleton, Prod.mk.injEq, exists_or]
      rw [or_comm]
      exact or_congr_left ⟨fun h => by obtain ⟨c', rfl, -⟩ := h; rfl, fun h => ⟨c, h.symm, rfl⟩⟩
    | false =>
      simp only [Bool.false_eq_true, if_false, List.mem_cons, Prod.mk.injEq, exists_or]
      exact or_congr_left ⟨fun h => by obtain ⟨c', rfl, -⟩ := h; rfl, fun h => ⟨c, h.symm, rfl⟩⟩

theorem spans_le {text : List α} {r : Regexp α} (h : Spans text r i j) : i ≤ j := by
  induction r generalizing i j with
  | empty => exact Nat.le_of_eq h.symm
  | one p => exact h.2 ▸ Nat.le_succ i
  | andThen a b iha ihb =>
    obtain ⟨k, ha, hb⟩ := h
    exact (iha ha).trans (ihb hb)
  | orElse a b iha ihb => exact h.elim iha ihb
  | star greedy a _ =>
    induction h with
    | refl => exact Nat.le_refl _
    | tail _ hstep ih => exact ih.trans hstep.2.le
  | group name a ih => exact ih h
  | notAhead a _ => exact Nat.le_of_eq h.2.symm
  | look p => exact Nat.le_of_eq h.2.symm

theorem spans_stop {text : List α} {r : Regexp α} (h : Spans text r i j) (hlt : i < j) :
    j ≤ text.length := by
  induction r generalizing i j with
  | empty => exact absurd h hlt.ne'
  | one p =>
    obtain ⟨hp, rfl⟩ := h
    exact any_lt hp
  | andThen a b iha ihb =>
    obtain ⟨k, ha, hb⟩ := h
    rcases Nat.lt_or_eq_of_le (spans_le hb) with hkj | rfl
    · exact ihb hb hkj
    · exact iha ha hlt
  | orElse a b iha ihb => exact h.elim (fun h => iha h hlt) fun h => ihb h hlt
  | star greedy a ih =>
    rcases Relation.ReflTransGen.cases_tail h with rfl | ⟨k, -, hstep, hkj⟩
    · exact absurd rfl hlt.ne
    · exact ih hstep hkj
  | group name a ih => exact ih h hlt
  | notAhead a _ => exact absurd h.2 hlt.ne'
  | look p => exact absurd h.2 hlt.ne'

/-- The matcher finds exactly the ends that there are, whatever groups it comes with. -/
theorem runs_iff {text : List α} {r : Regexp α} :
    (∃ c', (j, c') ∈ runs text r i c) ↔ Spans text r i j := by
  induction r generalizing i c j with
  | empty => simp [runs, Spans]
  | one p =>
    rw [runs, Spans]
    split <;> simp_all
  | andThen a b iha ihb =>
    simp only [runs, Spans, List.mem_flatMap, Prod.exists]
    constructor
    · rintro ⟨c', k, c'', ha, hb⟩
      exact ⟨k, iha.1 ⟨c'', ha⟩, ihb.1 ⟨c', hb⟩⟩
    · rintro ⟨k, ha, hb⟩
      obtain ⟨c'', ha⟩ := iha.2 ha
      obtain ⟨c', hb⟩ := ihb.2 hb
      exact ⟨c', k, c'', ha, hb⟩
  | orElse a b iha ihb =>
    simp only [runs, Spans, List.mem_append, exists_or]
    exact or_congr iha ihb
  | star greedy a ih =>
    rw [runs, Spans]
    exact iterate_iff (fun _ _ _ => ih) (fun _ _ h => spans_stop h) (Nat.le_add_left _ _)
  | group name a ih =>
    simp only [runs, Spans, List.mem_map, Prod.mk.injEq, Prod.exists]
    rw [← ih]
    constructor
    · rintro ⟨_, k, c'', hmem, rfl, -⟩
      exact ⟨c'', hmem⟩
    · rintro ⟨c'', hmem⟩
      exact ⟨_, j, c'', hmem, rfl, rfl⟩
  | notAhead a ih =>
    rw [runs, Spans]
    have hnone : (runs text a i c).isEmpty = true ↔ ¬ ∃ k, Spans text a i k := by
      rw [List.isEmpty_iff, List.eq_nil_iff_forall_not_mem]
      constructor
      · rintro h ⟨k, hk⟩
        obtain ⟨c', hc'⟩ := ih.2 hk
        exact h _ hc'
      · rintro h ⟨k, c'⟩ hmem
        exact h ⟨k, ih.1 ⟨c', hmem⟩⟩
    split
    · rename_i h
      simp [hnone.1 h]
    · rename_i h
      rw [hnone] at h
      simp [h]
  | look p =>
    rw [runs, Spans]
    split <;> simp_all

/-- A repetition of what takes one element takes a range of such elements. -/
theorem star_iff {text : List α} {r : Regexp α} (hone : ∀ i j, Spans text r i j → j = i + 1) :
    Spans text (.star greedy r) i k ↔ i ≤ k ∧ ∀ p, i ≤ p → p < k → Spans text r p (p + 1) := by
  rw [Spans]
  constructor
  · intro h
    refine ⟨spans_le (r := .star greedy r) h, ?_⟩
    induction h with
    | refl => exact fun p hp hlt => absurd hp (Nat.not_le.2 hlt)
    | tail _ hstep ih =>
      intro p hp hlt
      have hnext := hone _ _ hstep.1
      subst hnext
      rcases Nat.lt_or_eq_of_le (Nat.le_of_lt_succ hlt) with hlt | rfl
      · exact ih p hp hlt
      · exact hstep.1
  · rintro ⟨hle, h⟩
    induction k, hle using Nat.le_induction with
    | base => exact .refl
    | succ k hle ih =>
      exact (ih fun p hp hlt => h p hp (Nat.lt_succ_of_lt hlt)).tail
        ⟨h k hle (Nat.lt_succ_self k), Nat.lt_succ_self k⟩

theorem spans_one {text : List α} {p : α → Bool} :
    Spans text (.one p) i j ↔ (∃ x, text[i]? = some x ∧ p x = true) ∧ j = i + 1 := by
  rw [Spans, any_iff]

theorem spans_many {text : List α} {p : α → Bool} : Spans text (.star greedy (.one p)) i k ↔
    i ≤ k ∧ ∀ q, i ≤ q → q < k → ∃ x, text[q]? = some x ∧ p x = true := by
  rw [star_iff fun i j h => (spans_one.1 h).2]
  simp only [spans_one, and_true]

/-- A match: where it starts and stops, and its groups. -/
structure Match where
  start : Nat
  stop : Nat
  groups : GroupSpans
deriving DecidableEq

/-- The first way to match at a position. -/
def matchAt (text : List α) (r : Regexp α) (i : Nat) : Option Match :=
  (runs text r i []).head?.map fun e => ⟨i, e.1, e.2⟩

/-- The matches from a position on, from left to right. -/
def finditerFrom (text : List α) (r : Regexp α) : Nat → Nat → List Match
  | 0, _ => []
  | n + 1, i =>
    match matchAt text r i with
    | some m => m :: finditerFrom text r n (max m.stop (i + 1))
    | none => finditerFrom text r n (i + 1)

/-- `re.finditer`, for an expression that does not match the empty string. -/
def finditer (text : List α) (r : Regexp α) : List Match :=
  finditerFrom text r text.length 0

theorem matchAt_some {text : List α} {r : Regexp α} {m : Match} (h : matchAt text r i = some m) :
    m.start = i ∧ Spans text r i m.stop := by
  obtain ⟨e, he, rfl⟩ := Option.map_eq_some_iff.1 h
  exact ⟨rfl, runs_iff.1 ⟨e.2, List.mem_of_head? he⟩⟩

theorem matchAt_none {text : List α} {r : Regexp α} (h : matchAt text r i = none) :
    ¬ Spans text r i j := by
  intro hspans
  obtain ⟨c', hmem⟩ := (runs_iff (c := [])).2 hspans
  rw [matchAt, Option.map_eq_none_iff, List.head?_eq_none_iff] at h
  rw [h] at hmem
  cases hmem

theorem matchAt_isSome {text : List α} {r : Regexp α} {i : Nat} :
    (matchAt text r i).isSome = true ↔ ∃ j, Spans text r i j := by
  constructor
  · intro h
    obtain ⟨m, hm⟩ := Option.isSome_iff_exists.1 h
    exact ⟨m.stop, (matchAt_some hm).2⟩
  · rintro ⟨j, hj⟩
    by_contra h
    exact matchAt_none (Option.not_isSome_iff_eq_none.1 h) hj

/-- Every match takes some text. -/
def Advances (text : List α) (r : Regexp α) : Prop := ∀ i j, Spans text r i j → i < j

/-- The matches in a text: one after another, and none starts outside of them. -/
structure FindsAll (text : List α) (r : Regexp α) (pos : Nat) (ms : List Match) : Prop where
  ordered : ms.Pairwise fun m m' => m.stop ≤ m'.start
  found : ∀ m ∈ ms, pos ≤ m.start ∧ matchAt text r m.start = some m
  complete : ∀ i j, pos ≤ i → Spans text r i j → ∃ m ∈ ms, m.start ≤ i ∧ i < m.stop

theorem FindsAll.spans {text : List α} {r : Regexp α} {ms : List Match} {m : Match}
    (h : FindsAll text r pos ms) (hm : m ∈ ms) : Spans text r m.start m.stop :=
  (matchAt_some (h.found m hm).2).2

theorem finditerFrom_findsAll {text : List α} {r : Regexp α} (hadv : Advances text r)
    (h : text.length ≤ i + n) : FindsAll text r i (finditerFrom text r n i) := by
  induction n generalizing i with
  | zero =>
    refine ⟨List.Pairwise.nil, List.forall_mem_nil _, fun k j hk hspans => ?_⟩
    have hstop := spans_stop hspans (hadv _ _ hspans)
    have hlt := hadv _ _ hspans
    omega
  | succ n ih =>
    rw [finditerFrom]
    cases hm : matchAt text r i with
    | none =>
      obtain ⟨hordered, hfound, hcomplete⟩ := ih (i := i + 1) (by omega)
      refine ⟨hordered, fun m hmem => ?_, fun k j hk hspans => ?_⟩
      · exact ⟨Nat.le_of_succ_le (hfound m hmem).1, (hfound m hmem).2⟩
      · rcases Nat.lt_or_eq_of_le hk with hlt | rfl
        · exact hcomplete k j hlt hspans
        · exact absurd hspans (matchAt_none hm)
    | some m =>
      obtain ⟨rfl, hspan⟩ := matchAt_some hm
      have hlt := hadv _ _ hspan
      have hmax : max m.stop (m.start + 1) = m.stop := Nat.max_eq_left hlt
      simp only [hmax]
      obtain ⟨hordered, hfound, hcomplete⟩ := ih (i := m.stop) (by omega)
      refine ⟨List.pairwise_cons.2 ⟨fun m' hm' => (hfound m' hm').1, hordered⟩, ?_, ?_⟩
      · refine List.forall_mem_cons.2 ⟨⟨Nat.le_refl _, hm⟩, fun m' hm' => ?_⟩
        exact ⟨Nat.le_trans (Nat.le_of_lt hlt) (hfound m' hm').1, (hfound m' hm').2⟩
      · intro k j hk hspans
        rcases Nat.lt_or_ge k m.stop with hin | hout
        · exact ⟨m, List.mem_cons_self, hk, hin⟩
        · obtain ⟨m', hm', hin⟩ := hcomplete k j hout hspans
          exact ⟨m', List.mem_cons_of_mem _ hm', hin⟩

theorem matchAt_of_mem_finditerFrom {text : List α} {r : Regexp α} {m : Match}
    (h : m ∈ finditerFrom text r n i) : matchAt text r m.start = some m := by
  induction n generalizing i with
  | zero => cases h
  | succ n ih =>
    rw [finditerFrom] at h
    split at h
    · rename_i m' hm'
      rcases List.mem_cons.1 h with rfl | h
      · rwa [(matchAt_some hm').1]
      · exact ih h
    · exact ih h

theorem matchAt_of_mem {text : List α} {r : Regexp α} {m : Match} (h : m ∈ finditer text r) :
    matchAt text r m.start = some m := matchAt_of_mem_finditerFrom h

theorem finditer_findsAll {text : List α} {r : Regexp α} (hadv : Advances text r) :
    FindsAll text r 0 (finditer text r) :=
  finditerFrom_findsAll hadv (Nat.le_add_left _ _)

/-- The ranges of a relation that a search from left to right gives: one after another, and no range
starts outside of them. -/
structure Leftmost (R : Nat → Nat → Prop) (ranges : List (Nat × Nat)) : Prop where
  ordered : ranges.Pairwise fun s t => s.2 ≤ t.1
  sound : ∀ s ∈ ranges, R s.1 s.2
  complete : ∀ i j, R i j → ∃ s ∈ ranges, s.1 ≤ i ∧ i < s.2

def Match.range (m : Match) : Nat × Nat := (m.start, m.stop)

theorem finditer_leftmost {text : List α} {r : Regexp α} {R : Nat → Nat → Prop}
    (hiff : ∀ i j, Spans text r i j ↔ R i j) (hadv : ∀ i j, R i j → i < j) :
    Leftmost R ((finditer text r).map Match.range) := by
  have h : FindsAll text r 0 (finditer text r) :=
    finditer_findsAll fun i j hs => hadv i j ((hiff i j).1 hs)
  refine ⟨List.pairwise_map.2 h.ordered, ?_, fun i j hR => ?_⟩
  · intro s hs
    obtain ⟨m, hm, rfl⟩ := List.mem_map.1 hs
    exact (hiff _ _).1 (h.spans hm)
  · obtain ⟨m, hm, hin⟩ := h.complete i j (Nat.zero_le _) ((hiff i j).2 hR)
    exact ⟨m.range, List.mem_map_of_mem hm, hin⟩

/-- `text[i:j]`. -/
def slice (text : List α) (i j : Nat) : List α := (text.drop i).take (j - i)

theorem slice_append (text : List α) (hij : i ≤ j) (hjk : j ≤ k) :
    slice text i j ++ slice text j k = slice text i k := by
  have hlen : k - i = (j - i) + (k - j) := by omega
  rw [slice, slice, slice, hlen, List.take_add, List.drop_drop, Nat.add_sub_cancel' hij]

theorem slice_self (text : List α) (i : Nat) : slice text i i = [] := by
  rw [slice, Nat.sub_self, List.take_zero]

theorem length_slice (text : List α) (hj : j ≤ text.length) :
    (slice text i j).length = j - i := by
  rw [slice, List.length_take, List.length_drop]
  omega

theorem slice_one {text : List α} {x : α} (h : text[i]? = some x) : slice text i (i + 1) = [x] := by
  have hdrop : text.drop i = x :: text.drop (i + 1) := by
    obtain ⟨hlt, rfl⟩ := List.getElem?_eq_some_iff.1 h
    exact List.drop_eq_getElem_cons hlt
  rw [slice, hdrop, Nat.add_sub_cancel_left, List.take_succ_cons, List.take_zero]

theorem slice_cons {text : List α} {x : α} (h : text[i]? = some x) (hlt : i < j) :
    slice text i j = x :: slice text (i + 1) j := by
  rw [← slice_append text (Nat.le_succ i) hlt, slice_one h]
  rfl

theorem slice_ne_nil {text : List α} (h : i < j) (hj : j ≤ text.length) : slice text i j ≠ [] := by
  intro hnil
  have hlen := length_slice text (i := i) hj
  rw [hnil, List.length_nil] at hlen
  omega

theorem mem_slice {text : List α} {x : α} :
    x ∈ slice text i j ↔ ∃ k, i ≤ k ∧ k < j ∧ text[k]? = some x := by
  rw [slice, List.mem_iff_getElem?]
  constructor
  · rintro ⟨n, hn⟩
    rw [List.getElem?_take] at hn
    split at hn
    · rw [List.getElem?_drop] at hn
      exact ⟨i + n, by omega, by omega, hn⟩
    · cases hn
  · rintro ⟨k, hik, hkj, hk⟩
    refine ⟨k - i, ?_⟩
    rw [List.getElem?_take, if_pos (by omega), List.getElem?_drop, Nat.add_sub_cancel' hik]
    exact hk

def Match.group (text : List α) (m : Match) (name : Nat) : List α :=
  match m.groups.find? (·.1 = name) with
  | some (_, i, j) => slice text i j
  | none => []

theorem group_first {text : List α} (name : Nat) (groups : GroupSpans) :
    Match.group text ⟨start, stop, (name, i, j) :: groups⟩ name = slice text i j := by
  simp [Match.group]

theorem group_next {text : List α} (hne : name' ≠ name) (groups : GroupSpans) :
    Match.group text ⟨start, stop, (name', i, j) :: groups⟩ name =
      Match.group text ⟨start, stop, groups⟩ name := by
  simp [Match.group, hne]

/-- Expressions without groups. -/
def Plain : Regexp α → Prop
  | .empty => True
  | .one _ => True
  | .andThen a b => Plain a ∧ Plain b
  | .orElse a b => Plain a ∧ Plain b
  | .star _ a => Plain a
  | .group _ _ => False
  | .notAhead _ => True
  | .look _ => True

theorem iterate_groups {f : Nat → GroupSpans → List (Nat × GroupSpans)}
    (hf : ∀ i c e, e ∈ f i c → e.2 = c) (h : e ∈ iterate greedy f n i c) : e.2 = c := by
  induction n generalizing i c e with
  | zero =>
    rw [iterate, List.mem_singleton] at h
    rw [h]
  | succ n ih =>
    have hmore : ∀ e ∈ (f i c).flatMap fun r =>
        if i < r.1 then iterate greedy f n r.1 r.2 else [], e.2 = c := by
      intro e he
      obtain ⟨r, hr, he⟩ := List.mem_flatMap.1 he
      split at he
      · rw [ih he, hf i c r hr]
      · cases he
    rw [iterate] at h
    cases greedy with
    | true =>
      rcases List.mem_append.1 h with h | h
      · exact hmore e h
      · rw [List.mem_singleton.1 h]
    | false =>
      rcases List.mem_cons.1 h with rfl | h
      · rfl
      · exact hmore e h

theorem runs_groups {text : List α} {r : Regexp α} (hr : Plain r) (h : e ∈ runs text r i c) :
    e.2 = c := by
  induction r generalizing i c e with
  | empty =>
    rw [runs, List.mem_singleton] at h
    rw [h]
  | one p =>
    rw [runs] at h
    split at h
    · rw [List.mem_singleton.1 h]
    · cases h
  | andThen a b iha ihb =>
    obtain ⟨e', ha, hb⟩ := List.mem_flatMap.1 h
    rw [ihb hr.2 hb, iha hr.1 ha]
  | orElse a b iha ihb =>
    rcases List.mem_append.1 h with h | h
    · exact iha hr.1 h
    · exact ihb hr.2 h
  | star greedy a ih => exact iterate_groups (fun _ _ _ he => ih hr he) h
  | group name a => exact hr.elim
  | notAhead a =>
    rw [runs] at h
    split at h
    · rw [List.mem_singleton.1 h]
    · cases h
  | look p =>
    rw [runs] at h
    split at h
    · rw [List.mem_singleton.1 h]
    · cases h

theorem mem_runs_group {text : List α} {a : Regexp α} {c' : GroupSpans} (ha : Plain a)
    (h : (j, c') ∈ runs text (.group name a) i c) : c' = (name, i, j) :: c ∧ Spans text a i j := by
  obtain ⟨⟨k, c''⟩, hmem, heq⟩ := List.mem_map.1 h
  cases heq
  have hgroups := runs_groups ha hmem
  simp only at hgroups
  exact ⟨by rw [hgroups], runs_iff.1 ⟨c'', hmem⟩⟩

theorem mem_runs_group_andThen {text : List α} {a b : Regexp α} {c' : GroupSpans} (ha : Plain a)
    (h : (j, c') ∈ runs text (.andThen (.group name a) b) i c) :
    ∃ k, Spans text a i k ∧ (j, c') ∈ runs text b k ((name, i, k) :: c) := by
  obtain ⟨⟨k, c''⟩, hgroup, hb⟩ := List.mem_flatMap.1 h
  obtain ⟨rfl, hspans⟩ := mem_runs_group ha hgroup
  exact ⟨k, hspans, hb⟩

theorem mem_runs_plain_andThen {text : List α} {a b : Regexp α} {c' : GroupSpans} (ha : Plain a)
    (h : (j, c') ∈ runs text (.andThen a b) i c) :
    ∃ k, Spans text a i k ∧ (j, c') ∈ runs text b k c := by
  obtain ⟨⟨k, c''⟩, hplain, hb⟩ := List.mem_flatMap.1 h
  obtain rfl : c'' = c := runs_groups ha hplain
  exact ⟨k, runs_iff.1 ⟨c'', hplain⟩, hb⟩

theorem exists_head?_flatMap {β γ : Type} {l : List β} {f : β → List γ} {e : γ}
    (h : (l.flatMap f).head? = some e) : ∃ x ∈ l, (f x).head? = some e := by
  rw [List.head?_flatMap] at h
  exact List.exists_of_findSome?_eq_some h

theorem head?_runs_of_mem_finditer {text : List α} {r : Regexp α}
    (h : (⟨start, stop, groups⟩ : Match) ∈ finditer text r) :
    (runs text r start []).head? = some (stop, groups) := by
  obtain ⟨e, he, heq⟩ := Option.map_eq_some_iff.1 (matchAt_of_mem h)
  obtain ⟨-, rfl, rfl⟩ := Match.mk.inj heq
  exact he

theorem mem_runs_of_mem_finditer {text : List α} {r : Regexp α}
    (h : (⟨start, stop, groups⟩ : Match) ∈ finditer text r) :
    (stop, groups) ∈ runs text r start [] := List.mem_of_head? (head?_runs_of_mem_finditer h)

section repetitions

def many (p : α → Bool) : Regexp α := .star true (.one p)

def atLeastOne (p : α → Bool) : Regexp α := .andThen (.one p) (many p)

theorem plain_one (p : α → Bool) : Plain (.one p) := trivial

theorem plain_many (p : α → Bool) : Plain (many p) := trivial

theorem plain_atLeastOne (p : α → Bool) : Plain (atLeastOne p) := ⟨trivial, trivial⟩

theorem forall_of_spans_many {text : List α} {p : α → Bool} (h : Spans text (many p) i j) :
    ∀ x ∈ slice text i j, p x = true := by
  intro x hx
  obtain ⟨q, hq, hqj, hget⟩ := mem_slice.1 hx
  obtain ⟨y, hy, hpy⟩ := (spans_many.1 h).2 q hq hqj
  obtain rfl := Option.some.inj (hget.symm.trans hy)
  exact hpy

theorem lt_of_spans_atLeastOne {text : List α} {p : α → Bool}
    (h : Spans text (atLeastOne p) i j) : i < j := by
  obtain ⟨k, hone, hmany⟩ := h
  obtain rfl := (spans_one.1 hone).2
  exact spans_le (r := many p) hmany

theorem spans_atLeastOne {text : List α} {p : α → Bool} : Spans text (atLeastOne p) i j ↔
    i < j ∧ ∀ q, i ≤ q → q < j → ∃ x, text[q]? = some x ∧ p x = true := by
  have hmany {k : Nat} : Spans text (many p) k j ↔
      k ≤ j ∧ ∀ q, k ≤ q → q < j → ∃ x, text[q]? = some x ∧ p x = true := spans_many
  constructor
  · intro h
    refine ⟨lt_of_spans_atLeastOne h, fun q hq hqj => ?_⟩
    obtain ⟨k, hone, hrest⟩ := h
    obtain ⟨hx, rfl⟩ := spans_one.1 hone
    rcases Nat.lt_or_eq_of_le hq with hlt | rfl
    · exact (hmany.1 hrest).2 q hlt hqj
    · exact hx
  · rintro ⟨hlt, hall⟩
    refine ⟨i + 1, spans_one.2 ⟨hall i (Nat.le_refl i) hlt, rfl⟩, hmany.2 ⟨hlt, fun q hq hqj => ?_⟩⟩
    exact hall q (Nat.le_of_succ_le hq) hqj

theorem forall_of_spans_atLeastOne {text : List α} {p : α → Bool}
    (h : Spans text (atLeastOne p) i j) : ∀ x ∈ slice text i j, p x = true := by
  obtain ⟨k, hone, hmany⟩ := h
  obtain ⟨⟨x, hx, hpx⟩, rfl⟩ := spans_one.1 hone
  rw [slice_cons hx (spans_le (r := many p) hmany)]
  exact List.forall_mem_cons.2 ⟨hpx, forall_of_spans_many hmany⟩

end repetitions

section anchors

variable [DecidableEq α]

def lit (a : α) : Regexp α := .one (· = a)

/-- `$` when it matches at the end of each line. -/
def lineEnd (newline : α) : Regexp α :=
  .look fun text i => i = text.length || text[i]? = some newline

/-- `$` otherwise: at the end, and before a newline that ends the text. -/
def stringEnd (newline : α) : Regexp α :=
  .look fun text i => i = text.length || (i + 1 = text.length && text[i]? = some newline)

theorem spans_lit {text : List α} {a : α} :
    Spans text (lit a) i j ↔ text[i]? = some a ∧ j = i + 1 := by
  rw [lit, Spans, any_iff]
  simp

theorem plain_lit (a : α) : Plain (lit a) := trivial

/-- The text itself. -/
def word (s : List α) : Regexp α := s.foldr (fun a r => .andThen (lit a) r) .empty

theorem plain_word (s : List α) : Plain (word s) := by
  induction s with
  | nil => trivial
  | cons a s ih => exact ⟨trivial, ih⟩

theorem slice_of_spans_word {text s : List α} (h : Spans text (word s) i j) :
    slice text i j = s := by
  induction s generalizing i with
  | nil =>
    obtain rfl : j = i := h
    exact slice_self text j
  | cons a s ih =>
    obtain ⟨k, ha, hs⟩ := h
    obtain ⟨hget, rfl⟩ := spans_lit.1 ha
    rw [slice_cons hget (spans_le hs), ih hs]

end anchors

end Regexp

end Cvise
