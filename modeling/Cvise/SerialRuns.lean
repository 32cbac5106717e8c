import Cvise.Pass

namespace Cvise
set_option autoImplicit true

/-- A pass that tries the variants of a file one after another, on what it reads of the file. -/
structure SerialPass (S D : Type) where
  transform : S → D → PassResult × D
  advance : S → D → Option S
  advanceOnSuccess : S → D → Option S

namespace SerialPass

variable {S D : Type} [DecidableEq D]

/-- One transform and what follows it, by what the test says of the variant. A variant that is the
file itself is no success, and an error of the pass counts as a failure. -/
def step (p : SerialPass S D) (success : Bool) (c : S × D) : Option (S × D) :=
  match p.transform c.1 c.2 with
  | (.ok, d) =>
    if success = true ∧ d ≠ c.2 then (p.advanceOnSuccess c.1 d).map fun s => (s, d)
    else (p.advance c.1 c.2).map fun s => (s, c.2)
  | (.stop, _) => none
  | _ => (p.advance c.1 c.2).map fun s => (s, c.2)

/-- What is left to try after some transforms, if the run has not ended by then. -/
def run (p : SerialPass S D) (outcomes : Nat → Bool) (c : S × D) : Nat → Option (S × D)
  | 0 => some c
  | n + 1 => (p.step (outcomes 0) c).bind fun c => run p (fun i => outcomes (i + 1)) c n

/-- No sequence of test outcomes keeps the pass busy forever. -/
def Ends (p : SerialPass S D) (c : S × D) : Prop :=
  ∀ outcomes : Nat → Bool, ∃ n, p.run outcomes c n = none

variable {p : SerialPass S D}

/-- What a step can do: go on to the next state, or keep a variant. -/
theorem step_cases (h : p.step success c = some c') :
    ((p.transform c.1 c.2).1 ≠ .stop ∧ p.advance c.1 c.2 = some c'.1 ∧ c'.2 = c.2) ∨
    (p.transform c.1 c.2 = (.ok, c'.2) ∧ c'.2 ≠ c.2 ∧ p.advanceOnSuccess c.1 c'.2 = some c'.1) := by
  rw [step] at h
  split at h
  · rename_i d hd
    split at h
    · rename_i hs
      obtain ⟨s, hs', rfl⟩ := Option.map_eq_some_iff.1 h
      exact .inr ⟨hd, hs.2, hs'⟩
    · obtain ⟨s, hs', rfl⟩ := Option.map_eq_some_iff.1 h
      refine .inl ⟨?_, hs', rfl⟩
      rw [hd]
      exact fun he => by cases he
  · cases h
  · rename_i hstop
    obtain ⟨s, hs', rfl⟩ := Option.map_eq_some_iff.1 h
    refine .inl ⟨fun he => hstop (p.transform c.1 c.2).2 ?_, hs', rfl⟩
    rw [← he]

/-- A pass ends whose steps go down in a well-founded relation. -/
theorem ends_of_wellFounded {r : S × D → S × D → Prop} (hwf : WellFounded r)
    {inv : S × D → Prop}
    (hstep : ∀ success c c', inv c → p.step success c = some c' → inv c' ∧ r c' c)
    (h : inv c) : p.Ends c := by
  induction c using hwf.induction with
  | h c ih =>
    intro outcomes
    cases hs : p.step (outcomes 0) c with
    | none =>
      refine ⟨1, ?_⟩
      rw [run, hs, Option.bind_none]
    | some c' =>
      obtain ⟨hinv, hr⟩ := hstep (outcomes 0) c c' h hs
      obtain ⟨n, hn⟩ := ih c' hr hinv fun i => outcomes (i + 1)
      refine ⟨n + 1, ?_⟩
      rw [run, hs, Option.bind_some]
      exact hn

/-- A run ends whose steps go down in such a relation as long as its states are good ones. -/
theorem run_ends {r : S × D → S × D → Prop} (hwf : WellFounded r) {good : S × D → Prop}
    (hstep : ∀ success c c', good c → p.step success c = some c' → r c' c)
    (h : ∀ n c', p.run outcomes c n = some c' → good c') : ∃ n, p.run outcomes c n = none := by
  induction c using hwf.induction generalizing outcomes with
  | h c ih =>
    cases hs : p.step (outcomes 0) c with
    | none =>
      refine ⟨1, ?_⟩
      rw [run, hs, Option.bind_none]
    | some c' =>
      have hnext (n : Nat) : p.run outcomes c (n + 1) =
          p.run (fun i => outcomes (i + 1)) c' n := by
        rw [run, hs, Option.bind_some]
      obtain ⟨n, hn⟩ := ih c' (hstep _ c c' (h 0 c rfl) hs) fun n d hd =>
        h (n + 1) d ((hnext n).trans hd)
      exact ⟨n + 1, (hnext n).trans hn⟩

/-- A pass ends that counts up to a bound of the file while the file stays, and makes it smaller
with each success. -/
theorem ends_of_counting {lt : D → D → Prop} (hwf : WellFounded lt) {rank : S → Nat}
    {bound : D → Nat}
    (hrank : ∀ s d s', p.advance s d = some s' → (p.transform s d).1 ≠ .stop →
      rank s < bound d ∧ rank s < rank s')
    (hlt : ∀ s d d', p.transform s d = (.ok, d') → d' ≠ d → lt d' d) (c : S × D) : p.Ends c := by
  have hlex : WellFounded (InvImage (Prod.Lex lt (· < · : Nat → Nat → Prop))
      fun c : S × D => (c.2, bound c.2 - rank c.1)) :=
    InvImage.wf _ (WellFounded.prod_lex hwf Nat.lt_wfRel.wf)
  have hstep : ∀ success c c', True → p.step success c = some c' → True ∧
      InvImage (Prod.Lex lt (· < · : Nat → Nat → Prop))
        (fun c : S × D => (c.2, bound c.2 - rank c.1)) c' c := by
    intro success c c' _ hs
    refine ⟨trivial, ?_⟩
    rcases step_cases hs with ⟨hstop, hadvance, hsame⟩ | ⟨hok, hne, -⟩
    · obtain ⟨hbound, hnext⟩ := hrank c.1 c.2 c'.1 hadvance hstop
      refine Prod.lex_iff.2 (.inr ⟨hsame, ?_⟩)
      show bound c'.2 - rank c'.1 < bound c.2 - rank c.1
      rw [hsame]
      omega
    · exact Prod.lex_iff.2 (.inl (hlt c.1 c.2 c'.2 hok hne))
  exact ends_of_wellFounded hlex hstep trivial

end SerialPass

end Cvise
