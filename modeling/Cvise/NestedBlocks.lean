import Mathlib.Data.List.Basic
import Mathlib.Data.Nat.Init

namespace Cvise
set_option autoImplicit true

/-- Lines in nested blocks: each block has a line that opens it, and one that closes it unless the
text ends before. -/
inductive Blocks (α : Type) where
  | nil
  | line (a : α) (rest : Blocks α)
  | block (title : α) (body : Blocks α) (close : Option α) (rest : Blocks α)
deriving DecidableEq

inductive LineRole where
  | opens
  | closes
  | plain
deriving DecidableEq

namespace Blocks

variable {α β : Type}

def lines : Blocks α → List α
  | .nil => []
  | .line a rest => a :: lines rest
  | .block a body close rest => a :: (lines body ++ (close.toList ++ lines rest))

def topLines : Blocks α → List α
  | .nil => []
  | .line a rest => a :: topLines rest
  | .block _ _ _ rest => topLines rest

def map (f : α → β) : Blocks α → Blocks β
  | .nil => .nil
  | .line a rest => .line (f a) (map f rest)
  | .block a body close rest => .block (f a) (map f body) (close.map f) (map f rest)

def append : Blocks α → Blocks α → Blocks α
  | .nil, d => d
  | .line a rest, d => .line a (append rest d)
  | .block a body close rest, d => .block a body close (append rest d)

/-- Only the lines that are kept; of a block whose lines go, the contents stay in its place. -/
def prune (keep : α → Bool) : Blocks α → Blocks α
  | .nil => .nil
  | .line a rest => if keep a then .line a (prune keep rest) else prune keep rest
  | .block a body close rest =>
    if keep a then .block a (prune keep body) close (prune keep rest)
    else (prune keep body).append (prune keep rest)

def Closed : Blocks α → Prop
  | .nil => True
  | .line _ rest => Closed rest
  | .block _ body close rest => close.isSome ∧ Closed body ∧ Closed rest

/-- The lines have the roles that they play, where a role may depend on whether a line is in a
block. -/
def Reads (role : Bool → α → LineRole) (inside : Bool) : Blocks α → Prop
  | .nil => True
  | .line a rest => role inside a = .plain ∧ Reads role inside rest
  | .block a body close rest => role inside a = .opens ∧ Reads role true body ∧
      match close with
      | some x => role true x = .closes ∧ body.Closed ∧ Reads role inside rest
      | none => rest = .nil

/-- Something holds of each line, where it may depend on whether the line is in a block. -/
def Forall (P : Bool → α → Prop) (inside : Bool) : Blocks α → Prop
  | .nil => True
  | .line a rest => P inside a ∧ Forall P inside rest
  | .block a body close rest => P inside a ∧ Forall P true body ∧ (∀ x ∈ close, P true x) ∧
      Forall P inside rest

/-- The line that opens a block is kept if and only if the one that closes it is, and blocks that
are in no other one are kept. -/
def Balanced (keep : α → Bool) (inside : Bool) : Blocks α → Prop
  | .nil => True
  | .line _ rest => Balanced keep inside rest
  | .block a body close rest => (inside = false → keep a = true) ∧
      (∀ x ∈ close, keep x = keep a) ∧ Balanced keep true body ∧ Balanced keep inside rest

variable {role : Bool → α → LineRole} {P : Bool → α → Prop} {keep : α → Bool} {inside : Bool}
  {c d : Blocks α}

theorem lines_append (c d : Blocks α) : (c.append d).lines = c.lines ++ d.lines := by
  induction c with
  | nil => rfl
  | line a rest ih => rw [append, lines, lines, ih, List.cons_append]
  | block a body close rest _ ih =>
    rw [append, lines, lines, ih, List.cons_append, List.append_assoc, List.append_assoc]

theorem topLines_append (c d : Blocks α) : (c.append d).topLines = c.topLines ++ d.topLines := by
  induction c with
  | nil => rfl
  | line a rest ih => rw [append, topLines, topLines, ih, List.cons_append]
  | block a body close rest _ ih => rw [append, topLines, topLines, ih]

theorem lines_map (f : α → β) (c : Blocks α) : (c.map f).lines = c.lines.map f := by
  induction c with
  | nil => rfl
  | line a rest ih => rw [map, lines, lines, ih, List.map_cons]
  | block a body close rest ihb ihr =>
    rw [map, lines, lines, ihb, ihr, List.map_cons, List.map_append, List.map_append]
    cases close with
    | none => rfl
    | some x => rfl

theorem prune_lines (h : c.Balanced keep inside) : (c.prune keep).lines = c.lines.filter keep := by
  induction c generalizing inside with
  | nil => rfl
  | line a rest ih =>
    rw [prune, lines, List.filter_cons]
    split
    · rw [lines, ih h]
    · exact ih h
  | block a body close rest ihb ihr =>
    obtain ⟨-, hclose, hbody, hrest⟩ := h
    have hends : close.toList.filter keep = if keep a then close.toList else [] := by
      cases close with
      | none => exact (ite_self _).symm
      | some x =>
        rw [Option.toList_some, List.filter_singleton, hclose x rfl]
        cases keep a <;> rfl
    rw [prune, lines, List.filter_cons, List.filter_append, List.filter_append, hends]
    split
    · rw [lines, ihb hbody, ihr hrest]
    · rw [lines_append, ihb hbody, ihr hrest, List.nil_append]

theorem Closed.append (h : c.Closed) (h' : d.Closed) : (c.append d).Closed := by
  induction c with
  | nil => exact h'
  | line a rest ih => exact ih h
  | block a body close rest _ ih => exact ⟨h.1, h.2.1, ih h.2.2⟩

theorem Closed.prune (h : c.Closed) (keep : α → Bool) : (c.prune keep).Closed := by
  induction c with
  | nil => trivial
  | line a rest ih =>
    rw [Blocks.prune]
    split
    · exact ih h
    · exact ih h
  | block a body close rest ihb ihr =>
    rw [Blocks.prune]
    split
    · exact ⟨h.1, ihb h.2.1, ihr h.2.2⟩
    · exact (ihb h.2.1).append (ihr h.2.2)

theorem append_nil (c : Blocks α) : c.append .nil = c := by
  induction c with
  | nil => rfl
  | line a rest ih => rw [append, ih]
  | block a body close rest _ ih => rw [append, ih]

theorem Reads.append (h : c.Reads role inside) (hc : c.Closed) (h' : d.Reads role inside) :
    (c.append d).Reads role inside := by
  induction c with
  | nil => exact h'
  | line a rest ih => exact ⟨h.1, ih h.2 hc⟩
  | block a body close rest _ ih =>
    cases close with
    | none => cases hc.1
    | some x => exact ⟨h.1, h.2.1, h.2.2.1, h.2.2.2.1, ih h.2.2.2.2 hc.2.2⟩

/-- The lines that are kept play the roles that they played before. -/
theorem Reads.prune (h : c.Reads role inside) (hkeep : c.Balanced keep inside) :
    (c.prune keep).Reads role inside := by
  induction c generalizing inside with
  | nil => trivial
  | line a rest ih =>
    rw [Blocks.prune]
    split
    · exact ⟨h.1, ih h.2 hkeep⟩
    · exact ih h.2 hkeep
  | block a body close rest ihb ihr =>
    obtain ⟨hopens, hbody, hends⟩ := h
    obtain ⟨htop, -, hkeepBody, hkeepRest⟩ := hkeep
    have hbody' := ihb hbody hkeepBody
    rw [Blocks.prune]
    split
    · refine ⟨hopens, hbody', ?_⟩
      cases close with
      | none =>
        obtain rfl := hends
        rfl
      | some x => exact ⟨hends.1, hends.2.1.prune keep, ihr hends.2.2 hkeepRest⟩
    · rename_i hgone
      cases inside with
      | false => exact absurd (htop rfl) hgone
      | true =>
        cases close with
        | none =>
          obtain rfl := hends
          rw [Blocks.prune, append_nil]
          exact hbody'
        | some x => exact hbody'.append (hends.2.1.prune keep) (ihr hends.2.2 hkeepRest)

theorem Forall.append (h : c.Forall P inside) (h' : d.Forall P inside) :
    (c.append d).Forall P inside := by
  induction c with
  | nil => exact h'
  | line a rest ih => exact ⟨h.1, ih h.2⟩
  | block a body close rest _ ih => exact ⟨h.1, h.2.1, h.2.2.1, ih h.2.2.2⟩

theorem Forall.prune (h : c.Forall P inside) (hkeep : c.Balanced keep inside) :
    (c.prune keep).Forall P inside := by
  induction c generalizing inside with
  | nil => trivial
  | line a rest ih =>
    rw [Blocks.prune]
    split
    · exact ⟨h.1, ih h.2 hkeep⟩
    · exact ih h.2 hkeep
  | block a body close rest ihb ihr =>
    obtain ⟨ha, hbody, hclose, hrest⟩ := h
    obtain ⟨htop, -, hkeepBody, hkeepRest⟩ := hkeep
    rw [Blocks.prune]
    split
    · exact ⟨ha, ihb hbody hkeepBody, hclose, ihr hrest hkeepRest⟩
    · rename_i hgone
      cases inside with
      | true => exact (ihb hbody hkeepBody).append (ihr hrest hkeepRest)
      | false => exact absurd (htop rfl) hgone

theorem closed_map (f : α → β) (c : Blocks α) : (c.map f).Closed ↔ c.Closed := by
  induction c with
  | nil => exact Iff.rfl
  | line a rest ih => exact ih
  | block a body close rest ihb ihr =>
    rw [map, Closed, Closed, ihb, ihr, Option.isSome_map]

/-- The roles of lines are those of what the lines are made of. -/
theorem reads_map (f : β → α) (c : Blocks β) :
    (c.map f).Reads role inside ↔ c.Reads (fun inside b => role inside (f b)) inside := by
  induction c generalizing inside with
  | nil => exact Iff.rfl
  | line a rest ih => exact and_congr_right fun _ => ih
  | block a body close rest ihb ihr =>
    refine and_congr_right fun _ => and_congr ihb ?_
    cases close with
    | some x => exact and_congr_right fun _ => and_congr (closed_map f body) ihr
    | none =>
      cases rest with
      | nil => exact iff_of_true rfl rfl
      | line a rest => exact iff_of_false (fun h => by cases h) fun h => by cases h
      | block a body close rest => exact iff_of_false (fun h => by cases h) fun h => by cases h

theorem forall_map (f : β → α) (c : Blocks β) :
    (c.map f).Forall P inside ↔ c.Forall (fun inside b => P inside (f b)) inside := by
  induction c generalizing inside with
  | nil => exact Iff.rfl
  | line a rest ih => exact and_congr_right fun _ => ih
  | block a body close rest ihb ihr =>
    refine and_congr_right fun _ => and_congr ihb (and_congr ?_ ihr)
    cases close with
    | none => simp
    | some x => simp

/-- Lines that are made of those of a text have its form. -/
theorem exists_map {f : β → α} {c : Blocks α} {ls : List β} (h : ls.map f = c.lines) :
    ∃ c' : Blocks β, c'.lines = ls ∧ c'.map f = c := by
  induction c generalizing ls with
  | nil =>
    obtain rfl := List.map_eq_nil_iff.1 h
    exact ⟨.nil, rfl, rfl⟩
  | line a rest ih =>
    obtain ⟨b, ls, rfl, rfl, hrest⟩ := List.map_eq_cons_iff.1 h
    obtain ⟨c', rfl, hc'⟩ := ih hrest
    exact ⟨.line b c', rfl, by rw [map, hc']⟩
  | block a body close rest ihb ihr =>
    obtain ⟨b, ls, rfl, rfl, htail⟩ := List.map_eq_cons_iff.1 h
    obtain ⟨lsb, lsr, rfl, hbody, htail⟩ := List.map_eq_append_iff.1 htail
    obtain ⟨lsc, lsr, rfl, hclose, hrest⟩ := List.map_eq_append_iff.1 htail
    obtain ⟨body', rfl, hb⟩ := ihb hbody
    obtain ⟨rest', rfl, hr⟩ := ihr hrest
    cases close with
    | none =>
      obtain rfl := List.map_eq_nil_iff.1 hclose
      exact ⟨.block b body' none rest', rfl, by rw [map, hb, hr]; rfl⟩
    | some x =>
      obtain ⟨y, rfl, rfl⟩ := List.map_eq_singleton_iff.1 hclose
      exact ⟨.block b body' (some y) rest', rfl, by rw [map, hb, hr]; rfl⟩

theorem exists_reads_inside (role : Bool → α → LineRole) (ls : List α) :
    ∃ (c : Blocks α) (more : List α), ls = c.lines ++ more ∧ c.Reads role true ∧
      (more = [] ∨ ∃ x after, more = x :: after ∧ role true x = .closes ∧ c.Closed) := by
  induction hn : ls.length using Nat.strong_induction_on generalizing ls with
  | _ n ih =>
    cases ls with
    | nil => exact ⟨.nil, [], rfl, trivial, .inl rfl⟩
    | cons a ls =>
      rw [List.length_cons] at hn
      obtain ⟨body, more, rfl, hbody, hends⟩ := ih _ (by omega) ls rfl
      cases hrole : role true a with
      | plain =>
        refine ⟨.line a body, more, rfl, ⟨hrole, hbody⟩, hends.imp_right ?_⟩
        rintro ⟨x, after, hmore, hx, hclosed⟩
        exact ⟨x, after, hmore, hx, hclosed⟩
      | closes => exact ⟨.nil, _, rfl, trivial, .inr ⟨a, _, rfl, hrole, trivial⟩⟩
      | opens =>
        rcases hends with rfl | ⟨x, after, rfl, hx, hclosed⟩
        · refine ⟨.block a body none .nil, [], ?_, ⟨hrole, hbody, rfl⟩, .inl rfl⟩
          simp only [lines, Option.toList_none, List.append_nil]
        · rw [List.length_append, List.length_cons] at hn
          obtain ⟨rest, more, rfl, hrest, hends⟩ := ih _ (by omega) after rfl
          refine ⟨.block a body (some x) rest, more, ?_, ⟨hrole, hbody, hx, hclosed, hrest⟩,
            hends.imp_right ?_⟩
          · simp only [lines, Option.toList_some, List.append_assoc, List.cons_append,
              List.nil_append]
          · rintro ⟨y, after, hmore, hy, hrestClosed⟩
            exact ⟨y, after, hmore, hy, rfl, hclosed, hrestClosed⟩

theorem exists_reads (role : Bool → α → LineRole) (hout : ∀ a, role false a ≠ .closes)
    (ls : List α) : ∃ c : Blocks α, c.lines = ls ∧ c.Reads role false := by
  induction hn : ls.length using Nat.strong_induction_on generalizing ls with
  | _ n ih =>
    cases ls with
    | nil => exact ⟨.nil, rfl, trivial⟩
    | cons a ls =>
      rw [List.length_cons] at hn
      cases hrole : role false a with
      | plain =>
        obtain ⟨rest, rfl, hrest⟩ := ih _ (by omega) ls rfl
        exact ⟨.line a rest, rfl, hrole, hrest⟩
      | closes => exact absurd hrole (hout a)
      | opens =>
        obtain ⟨body, more, rfl, hbody, hends⟩ := exists_reads_inside role ls
        rcases hends with rfl | ⟨x, after, rfl, hx, hclosed⟩
        · refine ⟨.block a body none .nil, ?_, hrole, hbody, rfl⟩
          simp only [lines, Option.toList_none, List.append_nil]
        · rw [List.length_append, List.length_cons] at hn
          obtain ⟨rest, rfl, hrest⟩ := ih _ (by omega) after rfl
          refine ⟨.block a body (some x) rest, ?_, hrole, hbody, hx, hclosed, hrest⟩
          simp only [lines, Option.toList_some, List.cons_append, List.nil_append]

/-- After the contents of a block comes the line that closes it, or nothing. -/
theorem Reads.head_after {a : α} {body rest : Blocks α} {close : Option α} {more : List α}
    (h : (Blocks.block a body close rest).Reads role inside)
    (hmore : ∀ x ∈ more.head?, (Blocks.block a body close rest).Closed) :
    ∀ x ∈ (close.toList ++ (rest.lines ++ more)).head?, role true x = .closes ∧ body.Closed := by
  obtain ⟨-, -, hends⟩ := h
  intro x hx
  cases close with
  | some y =>
    obtain rfl := Option.some.inj hx
    exact ⟨hends.1, hends.2.1⟩
  | none =>
    obtain rfl := hends
    cases (hmore x hx).1

theorem Reads.unique_append {xs ys : List α} (hc : c.Reads role inside) (hd : d.Reads role inside)
    (hxs : ∀ x ∈ xs.head?, role inside x = .closes ∧ c.Closed)
    (hys : ∀ y ∈ ys.head?, role inside y = .closes ∧ d.Closed)
    (h : c.lines ++ xs = d.lines ++ ys) : c = d ∧ xs = ys := by
  induction c generalizing d inside xs ys with
  | nil =>
    cases d with
    | nil => exact ⟨rfl, h⟩
    | line b rest =>
      obtain rfl : xs = b :: (rest.lines ++ ys) := h
      cases (hxs b rfl).1.symm.trans hd.1
    | block b body close rest =>
      obtain rfl : xs = b :: (body.lines ++ (close.toList ++ rest.lines) ++ ys) := h
      cases (hxs b rfl).1.symm.trans hd.1
  | line a rest ih =>
    cases d with
    | nil =>
      obtain rfl : a :: (rest.lines ++ xs) = ys := h
      cases (hys a rfl).1.symm.trans hc.1
    | line b rest' =>
      obtain ⟨rfl, htail⟩ := List.cons.inj h
      obtain ⟨rfl, hends⟩ := ih hc.2 hd.2 hxs hys htail
      exact ⟨rfl, hends⟩
    | block b body close rest' =>
      obtain ⟨rfl, -⟩ := List.cons.inj h
      cases hc.1.symm.trans hd.1
  | block a body close rest ihb ihr =>
    cases d with
    | nil =>
      obtain rfl : a :: (body.lines ++ (close.toList ++ rest.lines) ++ xs) = ys := h
      cases (hys a rfl).1.symm.trans hc.1
    | line b rest' =>
      obtain ⟨rfl, -⟩ := List.cons.inj h
      cases hc.1.symm.trans hd.1
    | block b body' close' rest' =>
      have hafter := hc.head_after fun x hx => (hxs x hx).2
      have hafter' := hd.head_after fun y hy => (hys y hy).2
      simp only [lines, List.cons_append, List.append_assoc] at h
      obtain ⟨rfl, htail⟩ := List.cons.inj h
      obtain ⟨rfl, hmore⟩ := ihb hc.2.1 hd.2.1 hafter hafter' htail
      obtain ⟨-, -, hends⟩ := hc
      obtain ⟨-, -, hends'⟩ := hd
      cases close with
      | some x =>
        cases close' with
        | some x' =>
          obtain ⟨rfl, hsame⟩ := List.cons.inj hmore
          obtain ⟨rfl, hrest⟩ := ihr hends.2.2 hends'.2.2
            (fun z hz => ⟨(hxs z hz).1, (hxs z hz).2.2.2⟩)
            (fun z hz => ⟨(hys z hz).1, (hys z hz).2.2.2⟩) hsame
          exact ⟨rfl, hrest⟩
        | none =>
          obtain rfl := hends'
          obtain rfl : x :: (rest.lines ++ xs) = ys := hmore
          cases (hys x rfl).2.1
      | none =>
        obtain rfl := hends
        cases close' with
        | some x' =>
          obtain rfl : xs = x' :: (rest'.lines ++ ys) := hmore
          cases (hxs x' rfl).2.1
        | none =>
          obtain rfl := hends'
          exact ⟨rfl, hmore⟩

theorem Reads.unique (hc : c.Reads role inside) (hd : d.Reads role inside)
    (h : c.lines = d.lines) : c = d := by
  have hnone (p : α → Prop) : ∀ x ∈ ([] : List α).head?, p x := fun x hx => by cases hx
  exact (hc.unique_append hd (hnone _) (hnone _) (congrArg (· ++ []) h)).1

end Blocks

end Cvise
