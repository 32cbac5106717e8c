import Cvise.ApplyFrame

namespace Cvise
set_option autoImplicit true

structure IncludeLoc where
  path : RelPath
  left : Nat
  right : Nat
deriving DecidableEq

/-- The inclusions of each path; one without a location comes from outside of the test case. -/
abbrev PathToInclusions := Dict RelPath (List (Option IncludeLoc))

/-- `path_to_inclusions.setdefault(to_path, [])`, extended by the inclusions. -/
def PathToInclusions.add (d : PathToInclusions) (toPath : RelPath)
    (inclusions : List (Option IncludeLoc)) : PathToInclusions :=
  if d.any (·.1 = toPath) then
    d.map fun e => if e.1 = toPath then (e.1, e.2 ++ inclusions) else e
  else d ++ [(toPath, inclusions)]

/-- The hint cuts a file and pastes the same file elsewhere. -/
def MovesFile (h : Hint) : Prop :=
  ∃ cut paste : Patch, h.patches.Perm [cut, paste] ∧ cut.operation = none ∧ cut.path.isSome ∧
    paste.operation = some 0 ∧ paste.value = cut.path

theorem MovesFile.perm {g h : Hint} (hg : MovesFile g) (hp : h.patches.Perm g.patches) :
    MovesFile h := by
  obtain ⟨cut, paste, hperm, hrest⟩ := hg
  exact ⟨cut, paste, hp.trans hperm, hrest⟩

end Cvise
