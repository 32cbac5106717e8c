import Cvise.Hint
import Cvise.Outcome

namespace Cvise
set_option autoImplicit true

/-- `d[k]`. -/
def lookupKey [DecidableEq κ] (d : Dict κ ν) (k : κ) : Except PyErr ν :=
  match d.find? (·.1 = k) with
  | some e => .ok e.2
  | none => .error .keyError

/-- `dict.get(key)`. -/
def getKey [DecidableEq κ] (d : Dict κ ν) (k : κ) : Option ν := (d.find? (·.1 = k)).map Prod.snd

/-- `dict[key] = value`. -/
def setKey [DecidableEq κ] (d : Dict κ ν) (k : κ) (v : ν) : Dict κ ν :=
  if d.any (·.1 = k) then d.map fun e => if e.1 = k then (k, v) else e else d ++ [(k, v)]

theorem lookupKey_map [DecidableEq κ] {ks : List κ} {k : κ} (f : κ → ν) (h : k ∈ ks) :
    lookupKey (ks.map fun k => (k, f k)) k = .ok (f k) := by
  induction ks with
  | nil => cases h
  | cons k' ks ih =>
    by_cases hk : k' = k
    · subst hk
      simp [lookupKey]
    · have hfind := ih ((List.mem_cons.1 h).resolve_left (Ne.symm hk))
      simpa [lookupKey, hk] using hfind

theorem lookupKey_mapM [DecidableEq κ] {ks : List κ} {k : κ} {f : κ → Except PyErr ν}
    (h : ks.mapM (fun k => do return (k, ← f k)) = .ok d) (hk : k ∈ ks) (hf : f k = .ok v) :
    lookupKey d k = .ok v := by
  induction ks generalizing d with
  | nil => cases hk
  | cons k' ks ih =>
    simp only [List.mapM_cons, except_bind_ok] at h
    obtain ⟨e, ⟨v', hv', he⟩, d', hd', h⟩ := h
    cases he
    cases h
    by_cases heq : k' = k
    · subst heq
      cases hf.symm.trans hv'
      simp [lookupKey]
    · have hfind := ih hd' ((List.mem_cons.1 hk).resolve_left (Ne.symm heq))
      simpa [lookupKey, heq] using hfind

theorem lookupKey_ok [DecidableEq κ] {d : Dict κ ν} {k : κ} {v : ν} :
    lookupKey d k = .ok v ↔ getKey d k = some v := by
  rw [lookupKey, getKey]
  cases d.find? (·.1 = k) with
  | none => simp
  | some e => simp

theorem getKey_setKey_self [DecidableEq κ] (d : Dict κ ν) (k : κ) (v : ν) :
    getKey (setKey d k v) k = some v := by
  rw [getKey, setKey]
  split
  · rename_i hany
    obtain ⟨e, he, hk⟩ := List.any_eq_true.1 hany
    have hkey : (fun e : κ × ν => decide ((if e.1 = k then (k, v) else e).1 = k)) =
        fun e => decide (e.1 = k) := by
      funext e
      split
      · rename_i h
        simp [h]
      · rfl
    obtain ⟨e', he'⟩ := Option.isSome_iff_exists.1
      (List.find?_isSome (p := fun e : κ × ν => decide (e.1 = k)) |>.2 ⟨e, he, hk⟩)
    have hk' : e'.1 = k := of_decide_eq_true
      (List.find?_some (p := fun e : κ × ν => decide (e.1 = k)) he')
    rw [List.find?_map, Function.comp_def, hkey, he', Option.map_some, if_pos hk']
    rfl
  · rename_i hany
    have hnone : d.find? (fun e => decide (e.1 = k)) = none :=
      List.find?_eq_none.2 fun e he hk => hany (List.any_eq_true.2 ⟨e, he, hk⟩)
    rw [List.find?_append, hnone,
      List.find?_cons_of_pos (p := fun e : κ × ν => decide (e.1 = k)) (decide_eq_true rfl)]
    rfl

theorem getKey_setKey_ne [DecidableEq κ] {d : Dict κ ν} {k k' : κ} (h : k' ≠ k) (v : ν) :
    getKey (setKey d k v) k' = getKey d k' := by
  rw [getKey, setKey]
  split
  · have hkey : (fun e : κ × ν => decide ((if e.1 = k then (k, v) else e).1 = k')) =
        fun e => decide (e.1 = k') := by
      funext e
      split
      · rename_i he
        rw [he, decide_eq_false h.symm]
      · rfl
    rw [List.find?_map, Function.comp_def, hkey, getKey]
    cases hfind : d.find? fun e => decide (e.1 = k') with
    | none => rfl
    | some e =>
      have he : e.1 = k' := of_decide_eq_true
        (List.find?_some (p := fun e : κ × ν => decide (e.1 = k')) hfind)
      rw [Option.map_some, if_neg (he ▸ h)]
  · rw [List.find?_append, List.find?_cons_of_neg (by simpa using h.symm), List.find?_nil,
      Option.or_none, getKey]

end Cvise
