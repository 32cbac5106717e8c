import Mathlib.Data.Set.Finite.Lattice
import Mathlib.Order.Filter.AtTopBot.Basic
import Mathlib.Order.Filter.Finite
import Mathlib.Order.WellFounded

namespace Cvise
set_option autoImplicit true

/-- The end of a list at which a property stops to hold. -/
theorem exists_border {α : Type} {P : List α → Prop} {s w : List α} (hs : s <:+ w) (h : P s)
    (hw : ¬ P w) : ∃ l q, l :: q <:+ w ∧ s <:+ q ∧ P q ∧ ¬ P (l :: q) := by
  obtain ⟨p, rfl⟩ := hs
  induction p with
  | nil => exact absurd h hw
  | cons a p ih =>
    by_cases hp : P (p ++ s)
    · exact ⟨a, p ++ s, List.suffix_refl _, List.suffix_append _ _, hp, hw⟩
    · obtain ⟨l, q, hsuffix, hrest⟩ := ih hp
      exact ⟨l, q, hsuffix.trans (List.suffix_cons _ _), hrest⟩

section Replacement
variable {α : Type} [DecidableEq α]

/-- A text with `v` for each `x`. -/
def replaceAll (x : α) (v s : List α) : List α := s.flatMap fun y => if y = x then v else [y]

/-- A text with `v` for each `x` but the last one. -/
def replaceEarlier (x : α) (v : List α) : List α → List α
  | [] => []
  | y :: s => (if y = x ∧ x ∈ s then v else [y]) ++ replaceEarlier x v s

theorem replaceAll_cons (x : α) (v : List α) (y : α) (s : List α) :
    replaceAll x v (y :: s) = (if y = x then v else [y]) ++ replaceAll x v s := rfl

theorem replaceAll_append (x : α) (v s s' : List α) :
    replaceAll x v (s ++ s') = replaceAll x v s ++ replaceAll x v s' := List.flatMap_append

theorem mem_replaceAll {x y : α} {v s : List α} :
    y ∈ replaceAll x v s ↔ (y ∈ s ∧ y ≠ x) ∨ (x ∈ s ∧ y ∈ v) := by
  rw [replaceAll, List.mem_flatMap]
  constructor
  · rintro ⟨z, hz, hy⟩
    split at hy
    · rename_i he
      exact .inr ⟨he ▸ hz, hy⟩
    · rename_i hne
      obtain rfl := List.mem_singleton.1 hy
      exact .inl ⟨hz, hne⟩
  · rintro (⟨hy, hne⟩ | ⟨hx, hy⟩)
    · exact ⟨y, hy, by rw [if_neg hne]; exact List.mem_singleton_self y⟩
    · exact ⟨x, hx, by rw [if_pos rfl]; exact hy⟩

theorem replaceAll_of_not_mem {x : α} {v s : List α} (h : x ∉ s) : replaceAll x v s = s := by
  induction s with
  | nil => rfl
  | cons y s ih =>
    obtain ⟨hy, hs⟩ := not_or.1 (mt List.mem_cons.2 h)
    rw [replaceAll_cons, if_neg (Ne.symm hy), ih hs]
    rfl

theorem replaceEarlier_of_not_mem {x : α} {v s : List α} (h : x ∉ s) :
    replaceEarlier x v s = s := by
  induction s with
  | nil => rfl
  | cons y s ih =>
    obtain ⟨hy, hs⟩ := not_or.1 (mt List.mem_cons.2 h)
    rw [replaceEarlier, if_neg fun he => hy he.1.symm, ih hs]
    rfl

theorem replaceEarlier_append {x : α} {v s s' : List α} (h : x ∈ s') :
    replaceEarlier x v (s ++ s') = replaceAll x v s ++ replaceEarlier x v s' := by
  induction s with
  | nil => rfl
  | cons y s ih =>
    rw [List.cons_append, replaceEarlier, ih, replaceAll_cons, List.append_assoc]
    congr 1
    simp only [List.mem_append, h, or_true, and_true]

theorem replaceEarlier_last {x : α} {v : List α} (h : x ∉ v) (s : List α) :
    replaceEarlier x v (s ++ x :: v) = replaceAll x v s ++ x :: v := by
  rw [replaceEarlier_append List.mem_cons_self, replaceEarlier, if_neg fun he => h he.2,
    replaceEarlier_of_not_mem h]
  rfl

theorem mem_replaceEarlier_self {x y : α} {v s : List α} (h : y ∈ s) (hne : y ≠ x) :
    y ∈ replaceEarlier x v s := by
  induction s with
  | nil => cases h
  | cons z s ih =>
    rw [replaceEarlier, List.mem_append]
    rcases List.mem_cons.1 h with rfl | hs
    · rw [if_neg fun he => hne he.1]
      exact .inl (List.mem_singleton_self y)
    · exact .inr (ih hs)

/-- One replacement in a text of several lines: the name `x` stands in the line `home`, and what
follows it there is put for all other occurrences of it, of which there are some. -/
structure Replaces {ι : Type} [DecidableEq ι] (s s' : ι → List α) (home : ι) (before : List α)
    (x : α) (body : List α) : Prop where
  line : s home = before ++ x :: body
  fresh : x ∉ body
  used : x ∈ before ∨ ∃ k, k ≠ home ∧ x ∈ s k
  result : ∀ k, s' k =
    if k = home then replaceAll x body before ++ x :: body else replaceAll x body (s k)

end Replacement

/-- Replacements one after another, without an end. -/
structure ReplacementRun (ι α : Type) [DecidableEq ι] [DecidableEq α] where
  text : ℕ → ι → List α
  home : ℕ → ι
  before : ℕ → List α
  name : ℕ → α
  body : ℕ → List α
  replaces : ∀ t, Replaces (text t) (text (t + 1)) (home t) (before t) (name t) (body t)

namespace ReplacementRun

variable {ι α : Type} [DecidableEq ι] [DecidableEq α] (R : ReplacementRun ι α)

/-- What becomes of the end `s` of the line `k` in a step. -/
def evolve (t : ℕ) (k : ι) (s : List α) : List α :=
  if k = R.home t then replaceEarlier (R.name t) (R.body t) s
  else replaceAll (R.name t) (R.body t) s

/-- What becomes of it in `n` steps. -/
def later (t : ℕ) (k : ι) : ℕ → List α → List α
  | 0, s => s
  | n + 1, s => R.evolve (t + n) k (later t k n s)

/-- The step takes a name of the line `k` that stands before its end `s`. -/
def Crosses (t : ℕ) (k : ι) (s : List α) : Prop :=
  R.home t = k ∧ s.length ≤ (R.body t).length

/-- Some step from `t` on does so. -/
def Crossed (t : ℕ) (k : ι) (s : List α) : Prop :=
  ∃ n, R.Crosses (t + n) k (R.later t k n s)

variable {R}

theorem evolve_append (t : ℕ) (k : ι) (p s : List α) : ∃ p', R.evolve t k (p ++ s) =
    p' ++ R.evolve t k s ∧ ∀ y ∈ p', y ∈ p ∨ (R.name t ∈ p ∧ y ∈ R.body t) := by
  rw [evolve, evolve]
  split
  · induction p with
    | nil => exact ⟨[], rfl, fun y hy => absurd hy List.not_mem_nil⟩
    | cons z p ih =>
      obtain ⟨p', hp', hmem⟩ := ih
      rw [List.cons_append, replaceEarlier, hp', ← List.append_assoc]
      refine ⟨_, rfl, fun y hy => ?_⟩
      rcases List.mem_append.1 hy with hz | hp
      · split at hz
        · rename_i he
          exact .inr ⟨he.1 ▸ List.mem_cons_self, hz⟩
        · obtain rfl := List.mem_singleton.1 hz
          exact .inl List.mem_cons_self
      · rcases hmem y hp with hy | ⟨hx, hy⟩
        · exact .inl (List.mem_cons_of_mem _ hy)
        · exact .inr ⟨List.mem_cons_of_mem _ hx, hy⟩
  · refine ⟨_, replaceAll_append _ _ _ _, fun y hy => ?_⟩
    rcases mem_replaceAll.1 hy with ⟨hy, -⟩ | h
    · exact .inl hy
    · exact .inr h

theorem evolve_suffix {s s' : List α} (h : s <:+ s') : R.evolve t k s <:+ R.evolve t k s' := by
  obtain ⟨p, rfl⟩ := h
  obtain ⟨p', hp', -⟩ := evolve_append (R := R) t k p s
  exact ⟨p', hp'.symm⟩

theorem evolve_text (t : ℕ) (k : ι) : R.evolve t k (R.text t k) = R.text (t + 1) k := by
  have h := R.replaces t
  rw [h.result, evolve]
  split
  · rename_i he
    rw [he, h.line, replaceEarlier_last h.fresh]
  · rfl

theorem evolve_text_suffix {s : List α} (h : s <:+ R.text t k) :
    R.evolve t k s <:+ R.text (t + 1) k := by
  rw [← evolve_text]
  exact evolve_suffix h

theorem later_suffix {s s' : List α} (h : s <:+ s') (n : ℕ) :
    R.later t k n s <:+ R.later t k n s' := by
  induction n with
  | zero => exact h
  | succ n ih => exact evolve_suffix ih

theorem later_text_suffix {s : List α} (h : s <:+ R.text t k) (n : ℕ) :
    R.later t k n s <:+ R.text (t + n) k := by
  induction n with
  | zero => exact h
  | succ n ih => exact evolve_text_suffix ih

theorem later_succ (t : ℕ) (k : ι) (n : ℕ) (s : List α) :
    R.later t k (n + 1) s = R.later (t + 1) k n (R.evolve t k s) := by
  induction n with
  | zero => rfl
  | succ n ih =>
    rw [later, ih, later]
    congr 1
    omega

theorem Crosses.mono {s s' : List α} (h : R.Crosses t k s') (hs : s <:+ s') : R.Crosses t k s :=
  ⟨h.1, hs.length_le.trans h.2⟩

theorem Crossed.mono {s s' : List α} (h : R.Crossed t k s') (hs : s <:+ s') : R.Crossed t k s := by
  obtain ⟨n, hn⟩ := h
  exact ⟨n, hn.mono (later_suffix hs n)⟩

theorem crossed_iff {s : List α} :
    R.Crossed t k s ↔ R.Crosses t k s ∨ R.Crossed (t + 1) k (R.evolve t k s) := by
  constructor
  · rintro ⟨n, hn⟩
    cases n with
    | zero => exact .inl hn
    | succ n =>
      rw [later_succ, ← Nat.add_assoc, Nat.add_right_comm] at hn
      exact .inr ⟨n, hn⟩
  · rintro (h | ⟨n, hn⟩)
    · exact ⟨0, h⟩
    · refine ⟨n + 1, ?_⟩
      rw [later_succ, ← Nat.add_assoc, Nat.add_right_comm]
      exact hn

/-- The name of the step stands in the end of its line, unless the step crosses that. -/
theorem name_suffix {s : List α} (hs : s <:+ R.text t k) (hk : R.home t = k)
    (h : ¬ R.Crosses t k s) : R.name t :: R.body t <:+ s := by
  have hline : R.name t :: R.body t <:+ R.text t k := by
    rw [← hk, (R.replaces t).line]
    exact List.suffix_append _ _
  refine List.suffix_of_suffix_length_le hline hs ?_
  rw [List.length_cons]
  by_contra hlt
  exact h ⟨hk, by omega⟩

theorem body_suffix {s : List α} (hs : s <:+ R.text t k) (h : R.Crosses t k s) :
    s <:+ R.body t := by
  have hline : R.body t <:+ R.text t k := by
    rw [← h.1, (R.replaces t).line]
    exact (List.suffix_cons _ _).trans (List.suffix_append _ _)
  exact List.suffix_of_suffix_length_le hs hline h.2

/-- A text that has the name only once, in the line `k` before the end `s`. -/
structure Alone (R : ReplacementRun ι α) (t : ℕ) (k : ι) (a : α) (s : List α) : Prop where
  line : ∃ p, R.text t k = p ++ a :: s ∧ a ∉ p ∧ a ∉ s
  others : ∀ j, j ≠ k → a ∉ R.text t j

theorem Alone.name_ne {s : List α} (h : R.Alone t k a s) : R.name t ≠ a := by
  rintro rfl
  obtain ⟨p, hline, hp, hs⟩ := h.line
  have hr := R.replaces t
  have hk : R.home t = k := by
    by_contra hne
    refine h.others _ hne ?_
    rw [hr.line]
    exact List.mem_append_right _ List.mem_cons_self
  have hbefore : R.before t = p := by
    have hsplit := hr.line
    rw [hk, hline] at hsplit
    exact ((List.append_cons_inj_of_notMem hp hs).1 hsplit).1.symm
  rcases hr.used with hu | ⟨j, hj, hu⟩
  · rw [hbefore] at hu
    exact hp hu
  · rw [hk] at hj
    exact h.others j hj hu

theorem evolve_head {s : List α} (h : R.name t ≠ a) :
    R.evolve t k (a :: s) = a :: R.evolve t k s := by
  rw [evolve, evolve]
  split
  · rw [replaceEarlier, if_neg fun he => h he.1.symm]
    rfl
  · rw [replaceAll_cons, if_neg (Ne.symm h)]
    rfl

theorem not_mem_evolve {s : List α} (ha : a ∉ s) (hbody : a ∉ R.body t) : a ∉ R.evolve t k s := by
  obtain ⟨p', hp', hmem⟩ := evolve_append (R := R) t k s []
  have hnil : R.evolve t k [] = [] := by
    rw [evolve]
    split <;> rfl
  rw [List.append_nil, hnil, List.append_nil] at hp'
  rw [hp']
  intro h
  rcases hmem a h with h | ⟨-, h⟩
  · exact ha h
  · exact hbody h

theorem Alone.step {s : List α} (h : R.Alone t k a s) (hcross : ¬ R.Crosses t k (a :: s)) :
    R.Alone (t + 1) k a (R.evolve t k s) := by
  have hname := h.name_ne
  obtain ⟨p, hline, hp, hs⟩ := h.line
  have hbody : a ∉ R.body t := by
    by_cases hk : R.home t = k
    · have hsuffix : a :: s <:+ R.text t k := by
        rw [hline]
        exact List.suffix_append _ _
      rcases List.suffix_cons_iff.1 (name_suffix hsuffix hk hcross) with he | hin
      · exact absurd (List.cons.inj he).1 hname
      · exact fun ha => hs (hin.subset (List.mem_cons_of_mem _ ha))
    · intro ha
      refine h.others _ hk ?_
      rw [(R.replaces t).line]
      exact List.mem_append_right _ (List.mem_cons_of_mem _ ha)
  refine ⟨?_, fun j hj => ?_⟩
  · obtain ⟨p', hp', hmem⟩ := evolve_append (R := R) t k p (a :: s)
    refine ⟨p', ?_, fun ha => ?_, not_mem_evolve hs hbody⟩
    · rw [← evolve_text, hline, hp', evolve_head hname]
    · rcases hmem a ha with ha | ⟨-, ha⟩
      · exact hp ha
      · exact hbody ha
  · rw [← evolve_text]
    exact not_mem_evolve (h.others j hj) hbody

theorem alone_replaced (t : ℕ) : R.Alone (t + 1) (R.home t) (R.name t) (R.body t) := by
  have hr := R.replaces t
  have hnone (s : List α) : R.name t ∉ replaceAll (R.name t) (R.body t) s := by
    intro h
    rcases mem_replaceAll.1 h with ⟨-, hne⟩ | ⟨-, hin⟩
    · exact hne rfl
    · exact hr.fresh hin
  refine ⟨⟨_, ?_, hnone (R.before t), hr.fresh⟩, fun j hj => ?_⟩
  · rw [hr.result, if_pos rfl]
  · rw [hr.result, if_neg hj]
    exact hnone _

theorem crossed_between (h : R.name r = R.name t) (htr : t < r) :
    R.Crossed (t + 1) (R.home t) (R.name t :: R.body t) := by
  by_contra hcross
  have halone (n : ℕ) : ∃ s, R.Alone (t + 1 + n) (R.home t) (R.name t) s ∧
      R.later (t + 1) (R.home t) n (R.name t :: R.body t) = R.name t :: s := by
    induction n with
    | zero => exact ⟨_, alone_replaced t, rfl⟩
    | succ n ih =>
      obtain ⟨s, hs, hlater⟩ := ih
      refine ⟨_, hs.step fun h => hcross ⟨n, ?_⟩, ?_⟩
      · rw [hlater]
        exact h
      · rw [later, hlater, evolve_head hs.name_ne]
  obtain ⟨n, rfl⟩ := Nat.exists_eq_add_of_le htr
  obtain ⟨s, hs, -⟩ := halone n
  exact hs.name_ne h

def Recurrent (R : ReplacementRun ι α) : Prop := ∀ t, ∃ r, t < r ∧ R.name r = R.name t

theorem crossed_again {s : List α} (hrec : R.Recurrent) (hs : s <:+ R.text t k)
    (h : R.Crosses t k s) : R.Crossed (t + 1) k (R.evolve t k s) := by
  obtain ⟨r, htr, hr⟩ := hrec t
  have hcross := crossed_between hr htr
  rw [h.1] at hcross
  refine hcross.mono ?_
  have hsuffix := evolve_suffix (R := R) (t := t) (k := k)
    ((body_suffix hs h).trans (List.suffix_cons (R.name t) _))
  have hkeep := replaceEarlier_last (R.replaces t).fresh []
  rw [List.nil_append] at hkeep
  have hsame : R.evolve t k (R.name t :: R.body t) = R.name t :: R.body t := by
    rw [evolve, if_pos h.1.symm, hkeep]
    rfl
  rw [hsame] at hsuffix
  exact hsuffix

theorem crossed_evolve {s : List α} (hrec : R.Recurrent) (hs : s <:+ R.text t k)
    (h : R.Crossed t k s) : R.Crossed (t + 1) k (R.evolve t k s) := by
  rcases crossed_iff.1 h with h | h
  · exact crossed_again hrec hs h
  · exact h

theorem mem_evolve {s : List α} (hy : y ∈ s) (hne : y ≠ R.name t) : y ∈ R.evolve t j s := by
  rw [evolve]
  split
  · exact mem_replaceEarlier_self hy hne
  · exact mem_replaceAll.2 (.inl ⟨hy, hne⟩)

theorem mem_evolve_body {s : List α} (hs : s <:+ R.text t j) (hname : R.name t ∈ s)
    (hy : y ∈ R.body t) : y ∈ R.evolve t j s := by
  rw [evolve]
  split
  · rename_i he
    have hfresh := (R.replaces t).fresh
    have hcross : ¬ R.Crosses t j s := fun h => hfresh ((body_suffix hs h).subset hname)
    obtain ⟨p, rfl⟩ := name_suffix hs he.symm hcross
    rw [replaceEarlier_last hfresh]
    exact List.mem_append_right _ (List.mem_cons_of_mem _ hy)
  · exact mem_replaceAll.2 (.inr ⟨hname, hy⟩)

/-- Where the steps from `t` on take names of the line `k`: all of them behind `l`, or in what
becomes of `l`, and not all of them behind that. -/
structure Edge (R : ReplacementRun ι α) (t : ℕ) (k : ι) (l : α) (q : List α) : Prop where
  suffix : l :: q <:+ R.text t k
  calm : ¬ R.Crossed t k (l :: q)
  busy : R.Crossed t k q

theorem not_crossed_text (t : ℕ) (k : ι) : ¬ R.Crossed t k (R.text t k) := by
  rintro ⟨n, hhome, hlen⟩
  have htext (n : ℕ) : R.later t k n (R.text t k) = R.text (t + n) k := by
    induction n with
    | zero => rfl
    | succ n ih =>
      rw [later, ih, evolve_text]
      rfl
  rw [htext, ← hhome, (R.replaces (t + n)).line, List.length_append, List.length_cons] at hlen
  omega

theorem edge_exists (hr : R.home (t + n) = k) : ∃ l q, R.Edge t k l q := by
  have hnil : R.Crossed t k [] := by
    refine ⟨n, hr, ?_⟩
    have hlater (n : ℕ) : R.later t k n [] = [] := by
      induction n with
      | zero => rfl
      | succ n ih =>
        rw [later, ih, evolve]
        split <;> rfl
    rw [hlater]
    exact Nat.zero_le _
  obtain ⟨l, q, hsuffix, -, hbusy, hcalm⟩ :=
    exists_border (P := R.Crossed t k) (List.nil_suffix) hnil (not_crossed_text t k)
  exact ⟨l, q, hsuffix, hcalm, hbusy⟩

namespace Edge

theorem text_suffix {q : List α} (h : R.Edge t k l q) : q <:+ R.text t k :=
  (List.suffix_cons _ _).trans h.suffix

theorem unique {q q' : List α} (h : R.Edge t k l q) (h' : R.Edge t k l' q') : l = l' ∧ q = q' := by
  have hlen {l l' : α} {q q' : List α} (h : R.Edge t k l q) (h' : R.Edge t k l' q') :
      q'.length ≤ q.length := by
    by_contra hlt
    have hsuffix : l :: q <:+ q' := by
      refine List.suffix_of_suffix_length_le h.suffix h'.text_suffix ?_
      rw [List.length_cons]
      omega
    exact h.calm (h'.busy.mono hsuffix)
  have hle : (l :: q).length = (l' :: q').length :=
    congrArg Nat.succ (Nat.le_antisymm (hlen h' h) (hlen h h'))
  have hcons := (List.suffix_of_suffix_length_le h.suffix h'.suffix hle.le).eq_of_length hle
  exact List.cons.inj hcons

/-- A name of the line that is taken stands behind the edge. -/
theorem name_behind {q : List α} (hrec : R.Recurrent) (h : R.Edge t k l q) (hk : R.home t = k) :
    R.name t :: R.body t <:+ q := by
  have hsuffix := name_suffix h.suffix hk fun hc => h.calm (crossed_iff.2 (.inl hc))
  rcases List.suffix_cons_iff.1 hsuffix with he | hin
  · obtain ⟨r, htr, hr⟩ := hrec t
    have hcross := crossed_between hr htr
    have hkeep := replaceEarlier_last (R.replaces t).fresh []
    rw [List.nil_append] at hkeep
    have hsame : R.evolve t k (l :: q) = l :: q := by
      rw [evolve, if_pos hk.symm, ← he, hkeep]
      rfl
    rw [hk, he, ← hsame] at hcross
    exact absurd (crossed_iff.2 (.inr hcross)) h.calm
  · exact hin

/-- The edge after a step: the same name, or one of those that are put for it. -/
theorem next {q : List α} (hrec : R.Recurrent) (h : R.Edge t k l q) : ∃ l' q',
    R.Edge (t + 1) k l' q' ∧ R.evolve t k q <:+ q' ∧
      (R.name t ≠ l → l' = l ∧ q' = R.evolve t k q) ∧ (R.name t = l → l' ∈ R.body t) := by
  obtain ⟨l', q', hsuffix, hq, hbusy, hcalm⟩ := exists_border (P := R.Crossed (t + 1) k)
    (evolve_suffix (List.suffix_cons l q)) (crossed_evolve hrec h.text_suffix h.busy)
    fun hc => h.calm (crossed_iff.2 (.inr hc))
  refine ⟨l', q', ⟨hsuffix.trans (evolve_text_suffix h.suffix), hcalm, hbusy⟩, hq, ?_, ?_⟩
  · intro hne
    rw [evolve_head hne] at hsuffix
    have hlen := hq.length_le
    have hle := hsuffix.length_le
    have heq := hsuffix.eq_of_length (Nat.le_antisymm hle (Nat.succ_le_succ hlen))
    exact List.cons.inj heq
  · intro he
    have hput : R.evolve t k (l :: q) = R.body t ++ R.evolve t k q := by
      rw [evolve, evolve]
      split
      · rename_i hk
        have hin : R.name t ∈ q := (h.name_behind hrec hk.symm).subset List.mem_cons_self
        rw [replaceEarlier, if_pos ⟨he.symm, hin⟩]
      · rw [replaceAll_cons, if_pos he.symm]
    obtain ⟨p, hp⟩ := hsuffix
    obtain ⟨m, rfl⟩ := hq
    rw [hput, ← List.cons_append, ← List.append_assoc] at hp
    rw [← List.append_cancel_right hp]
    exact List.mem_append_right _ List.mem_cons_self

/-- A name that stands in the end of a line stands there for ever, as far as the edge goes. -/
theorem shadow {q q' s : List α} (hrec : R.Recurrent) (h : R.Edge t k l q)
    (h' : R.Edge (t + 1) k l' q') (hs : s <:+ R.text t j) (hl : l ∈ s) :
    l' ∈ R.evolve t j s := by
  obtain ⟨l₁, q₁, h₁, -, hsame, hput⟩ := h.next hrec
  obtain ⟨rfl, -⟩ := h'.unique h₁
  by_cases he : R.name t = l
  · exact mem_evolve_body hs (he ▸ hl) (hput he)
  · rw [(hsame he).1]
    exact mem_evolve hl (Ne.symm he)

theorem afterwards {q : List α} (hrec : R.Recurrent) (h : R.Edge t k l q) (n : ℕ) :
    ∃ l' q', R.Edge (t + n) k l' q' ∧ R.later t k n q <:+ q' ∧
      ∀ j s, s <:+ R.text t j → l ∈ s → l' ∈ R.later t j n s := by
  induction n with
  | zero => exact ⟨l, q, h, List.suffix_refl _, fun j s _ hl => hl⟩
  | succ n ih =>
    obtain ⟨l₁, q₁, h₁, hq₁, hs₁⟩ := ih
    obtain ⟨l₂, q₂, h₂, hq₂, -⟩ := h₁.next hrec
    exact ⟨l₂, q₂, h₂, (evolve_suffix hq₁).trans hq₂, fun j s hs hl =>
      h₁.shadow hrec h₂ (later_text_suffix hs n) (hs₁ j s hs hl)⟩

/-- A name is taken that has come from `l`, and that stands in an end `s` where `l` stands in it. -/
theorem taken {q s : List α} (h : R.Edge t k l q) (hs : s <:+ R.text t j) (hl : l ∈ s) :
    ∃ n, R.home (t + n) = k ∧ R.later t k n q <:+ R.body (t + n) ∧
      R.name (t + n) ∈ R.later t j n s := by
  classical
  -- Until then what has come from `l` is part of what has come from `s`.
  have hpart (n : ℕ) (hbefore : ∀ m < n, ¬ R.Crosses (t + m) k (R.later t k m q)) :
      ∃ g, R.later t k n (l :: q) = g ++ R.later t k n q ∧ ∀ y ∈ g, y ∈ R.later t j n s := by
    induction n with
    | zero =>
      refine ⟨[l], rfl, fun y hy => ?_⟩
      rw [List.mem_singleton.1 hy]
      exact hl
    | succ n ih =>
      obtain ⟨g, hg, hmem⟩ := ih fun m hm => hbefore m (Nat.lt_succ_of_lt hm)
      have hput : R.later t k (n + 1) (l :: q) =
          replaceAll (R.name (t + n)) (R.body (t + n)) g ++ R.later t k (n + 1) q := by
        rw [later, later, hg, evolve, evolve]
        split
        · rename_i hk
          have hname := name_suffix (later_text_suffix h.text_suffix n) hk.symm
            (hbefore n (Nat.lt_succ_self n))
          rw [replaceEarlier_append (hname.subset List.mem_cons_self)]
        · rw [replaceAll_append]
      refine ⟨_, hput, fun y hy => ?_⟩
      rcases mem_replaceAll.1 hy with ⟨hy, hne⟩ | ⟨hx, hy⟩
      · exact mem_evolve (hmem y hy) hne
      · exact mem_evolve_body (later_text_suffix hs n) (hmem _ hx) hy
  have hfind := Nat.find_spec h.busy
  obtain ⟨g, hg, hmem⟩ := hpart (Nat.find h.busy) fun m hm => Nat.find_min h.busy hm
  have hbody := body_suffix (later_text_suffix h.text_suffix _) hfind
  have hname := name_suffix (later_text_suffix h.suffix _) hfind.1 fun hc => h.calm ⟨_, hc⟩
  refine ⟨_, hfind.1, hbody, hmem _ ?_⟩
  obtain ⟨b, hb⟩ := hbody
  obtain ⟨p, hp⟩ := hname
  rw [hg, ← hb, ← List.cons_append, ← List.append_assoc] at hp
  rw [← List.append_cancel_right hp]
  exact List.mem_append_right _ List.mem_cons_self

end Edge

/-- The name at the edge of the line `k` stands behind the edge of the line `j`. -/
def Below (R : ReplacementRun ι α) (t : ℕ) (k j : ι) : Prop :=
  ∃ l q l' q', R.Edge t k l q ∧ R.Edge t j l' q' ∧ l ∈ q'

theorem Below.later (hrec : R.Recurrent) (h : R.Below t k j) (n : ℕ) : R.Below (t + n) k j := by
  obtain ⟨l, q, l', q', hk, hj, hl⟩ := h
  obtain ⟨l₁, q₁, hk₁, -, hs⟩ := hk.afterwards hrec n
  obtain ⟨l₂, q₂, hj₂, hq, -⟩ := hj.afterwards hrec n
  exact ⟨l₁, q₁, l₂, q₂, hk₁, hj₂, hq.subset (hs j q' hj.text_suffix hl)⟩

theorem Below.irrefl : ¬ R.Below t k k := by
  rintro ⟨l, q, l', q', hk, hk', hl⟩
  obtain ⟨rfl, rfl⟩ := hk.unique hk'
  obtain ⟨n, -, hbody, hname⟩ := hk.taken hk.text_suffix hl
  exact (R.replaces (t + n)).fresh (hbody.subset hname)

theorem Below.trans (hrec : R.Recurrent) (h : R.Below t k j) (h' : R.Below t j i) :
    ∃ n, R.Below (t + n) k i := by
  obtain ⟨l, q, l₂, q₂, hk, hj, hl⟩ := h
  obtain ⟨l₂', q₂', l₃, q₃, hj', hi, hl₂⟩ := h'
  obtain ⟨rfl, rfl⟩ := hj.unique hj'
  obtain ⟨n, hhome, hbody, hname⟩ := hj.taken hi.text_suffix hl₂
  obtain ⟨m, p, hk₁, -, hs⟩ := hk.afterwards hrec n
  obtain ⟨l₄, q', hi₁, hq, -⟩ := hi.afterwards hrec n
  have hm : m ∈ R.body (t + n) := hbody.subset (hs j q₂ hj.text_suffix hl)
  have hne : R.name (t + n) ≠ m := fun he => (R.replaces (t + n)).fresh (he ▸ hm)
  obtain ⟨m', p', hk₂, -, hsame, -⟩ := hk₁.next hrec
  obtain ⟨l', q'', hi₂, hq', -⟩ := hi₁.next hrec
  refine ⟨n + 1, m', p', l', q'', hk₂, hi₂, hq'.subset ?_⟩
  rw [(hsame hne).1]
  exact mem_evolve_body hi₁.text_suffix (hq.subset hname) hm

theorem exists_below (hrec : R.Recurrent) {q : List α} (h : R.Edge t k l q) :
    ∃ n j, R.Below (t + n) k j := by
  by_contra hnone
  -- A name at the edge is never replaced: it would stand behind the edge of the line it is in.
  have hne (n : ℕ) (l' : α) (q' : List α) (h' : R.Edge (t + n) k l' q') :
      R.name (t + n) ≠ l' := by
    rintro rfl
    obtain ⟨l₂, q₂, h₂⟩ := edge_exists (R := R) (t := t + n) (n := 0) rfl
    refine hnone ⟨n, _, _, _, l₂, q₂, h', h₂, ?_⟩
    exact (h₂.name_behind hrec rfl).subset List.mem_cons_self
  have hstays (n : ℕ) : R.Edge (t + n) k l (R.later t k n q) := by
    induction n with
    | zero => exact h
    | succ n ih =>
      obtain ⟨l', q', h', -, hsame, -⟩ := ih.next hrec
      obtain ⟨rfl, rfl⟩ := hsame (hne n _ _ ih)
      exact h'
  obtain ⟨n, hn⟩ := h.busy
  have hname := (hstays n).name_behind hrec hn.1
  have hlen := hname.length_le
  have hle := hn.2
  rw [List.length_cons] at hlen
  omega

/-- No run has only names that are replaced again and again. -/
theorem not_recurrent [Finite ι] : ¬ R.Recurrent := by
  intro hrec
  have hlift {t k j} (h : R.Below t k j) {r} (htr : t ≤ r) : R.Below r k j := by
    obtain ⟨n, rfl⟩ := Nat.exists_eq_add_of_le htr
    exact h.later hrec n
  have hirrefl : Std.Irrefl fun j k => ∃ t, R.Below t k j := by
    refine ⟨fun k h => ?_⟩
    obtain ⟨t, h⟩ := h
    exact h.irrefl
  have htrans : IsTrans ι fun j k => ∃ t, R.Below t k j := by
    refine ⟨fun i j k h h' => ?_⟩
    obtain ⟨t, hij⟩ := h
    obtain ⟨r, hjk⟩ := h'
    obtain ⟨n, hn⟩ := (hlift hjk (Nat.le_max_right t r)).trans hrec
      (hlift hij (Nat.le_max_left t r))
    exact ⟨_, hn⟩
  have hwf := Finite.wellFounded_of_trans_of_irrefl fun j k => ∃ t, R.Below t k j
  obtain ⟨l, q, hedge⟩ := edge_exists (R := R) (t := 0) (n := 0) rfl
  have hnone (k : ι) : ∀ t l q, ¬ R.Edge t k l q := by
    induction k using hwf.induction with
    | h k ih =>
      intro t l q h
      obtain ⟨n, j, hbelow⟩ := exists_below hrec h
      have hrel : ∃ t, R.Below t k j := ⟨_, hbelow⟩
      obtain ⟨_, _, l', q', -, hj, -⟩ := hbelow
      exact ih j hrel _ l' q' hj
  exact hnone _ _ _ _ hedge

/-- A run from a later step on. -/
def shift (R : ReplacementRun ι α) (n : ℕ) : ReplacementRun ι α where
  text t := R.text (n + t)
  home t := R.home (n + t)
  before t := R.before (n + t)
  name t := R.name (n + t)
  body t := R.body (n + t)
  replaces t := R.replaces (n + t)

theorem mem_text (t : ℕ) (h : y ∈ R.text t k) : ∃ j, y ∈ R.text 0 j := by
  induction t generalizing k with
  | zero => exact ⟨k, h⟩
  | succ t ih =>
    have hr := R.replaces t
    have hbody (hy : y ∈ R.body t) : y ∈ R.text t (R.home t) := by
      rw [hr.line]
      exact List.mem_append_right _ (List.mem_cons_of_mem _ hy)
    have hput {s : List α} (hs : ∀ z ∈ s, z ∈ R.text t k)
        (hy : y ∈ replaceAll (R.name t) (R.body t) s) : ∃ j, y ∈ R.text t j := by
      rcases mem_replaceAll.1 hy with ⟨hy, -⟩ | ⟨-, hy⟩
      · exact ⟨k, hs y hy⟩
      · exact ⟨_, hbody hy⟩
    obtain ⟨j, hj⟩ : ∃ j, y ∈ R.text t j := by
      rw [hr.result] at h
      split at h
      · rename_i hk
        rcases List.mem_append.1 h with h | h
        · refine hput (fun z hz => ?_) h
          rw [hk, hr.line]
          exact List.mem_append_left _ hz
        · refine ⟨R.home t, ?_⟩
          rw [hr.line]
          exact List.mem_append_right _ h
      · exact hput (fun z hz => hz) h
    exact ih hj

theorem finite_names [Finite ι] (R : ReplacementRun ι α) : (Set.range R.name).Finite := by
  have hfinite : (⋃ k, {y | y ∈ R.text 0 k}).Finite :=
    Set.finite_iUnion fun k => List.finite_toSet _
  refine hfinite.subset ?_
  rintro _ ⟨t, rfl⟩
  have hname : R.name t ∈ R.text t (R.home t) := by
    rw [(R.replaces t).line]
    exact List.mem_append_right _ List.mem_cons_self
  obtain ⟨j, hj⟩ := mem_text t hname
  exact Set.mem_iUnion.2 ⟨j, hj⟩

/-- From some step on the names that are replaced are replaced again and again. -/
theorem exists_recurrent [Finite ι] (R : ReplacementRun ι α) : ∃ n, (R.shift n).Recurrent := by
  have hlast (a : α) : ∃ n, (∃ m, ∀ r ≥ m, R.name r ≠ a) → ∀ r ≥ n, R.name r ≠ a := by
    by_cases h : ∃ m, ∀ r ≥ m, R.name r ≠ a
    · obtain ⟨m, hm⟩ := h
      exact ⟨m, fun _ => hm⟩
    · exact ⟨0, fun h' => absurd h' h⟩
  choose last hlast using hlast
  obtain ⟨n, hn⟩ := (R.finite_names.image last).bddAbove
  refine ⟨n, fun t => ?_⟩
  have hle : last (R.name (n + t)) ≤ n + t :=
    (hn ⟨_, ⟨n + t, rfl⟩, rfl⟩).trans (Nat.le_add_right n t)
  by_contra hnone
  refine hlast (R.name (n + t)) ⟨n + t + 1, fun r hr he => hnone ?_⟩ (n + t) hle rfl
  obtain ⟨d, rfl⟩ := Nat.exists_eq_add_of_le hr
  refine ⟨t + 1 + d, by omega, ?_⟩
  show R.name (n + (t + 1 + d)) = R.name (n + t)
  rw [← he]
  congr 1
  omega

theorem no_run [Finite ι] (R : ReplacementRun ι α) : False := by
  obtain ⟨n, hn⟩ := R.exists_recurrent
  exact not_recurrent hn

end ReplacementRun

theorem no_endless_replacement {ι α : Type} [DecidableEq ι] [DecidableEq α] [Finite ι]
    (text : ℕ → ι → List α)
    (h : ∀ t, ∃ home before x body, Replaces (text t) (text (t + 1)) home before x body) :
    False := by
  choose home before name body hreplaces using h
  exact ReplacementRun.no_run ⟨text, home, before, name, body, hreplaces⟩

end Cvise
