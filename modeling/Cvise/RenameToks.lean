import Cvise.RmToks
import Mathlib.Data.List.Induction

namespace Cvise
set_option autoImplicit true

/-- `next_char`: whether it wrapped, and the next character. -/
def nextChar (c : UInt8) : Bool × UInt8 := if c = 122 then (true, 97) else (false, c + 1)

/-- The loop of `next_name`, on the characters from the end of the name on. -/
def nextNameRev : Bytes → Bytes
  | [] => [97]
  | c :: cs =>
    let (wrapped, c) := nextChar c
    if wrapped then c :: nextNameRev cs else c :: cs

def nextName (name : Bytes) : Bytes := (nextNameRev name.reverse).reverse

/-- The loop of `find_unused_name`, as many times as the fuel allows. -/
def findUnusedName (toks : List Tok) : Nat → Bytes → Option Bytes
  | 0, _ => none
  | fuel + 1, name =>
    if toks.any (·.str = name) then findUnusedName toks fuel (nextName name) else some name

def shouldBeRenamed (name newname : Bytes) : Bool :=
  if name.any fun c => c < 97 || 122 < c then true
  else if name.length < newname.length then false
  else newname < name

/-- One token in the loop of `index_toks`, with the index and the tokens so far. -/
def indexTok (newname : Bytes) (indexed : List Bytes × List Tok) (t : Tok) :
    List Bytes × List Tok :=
  let (index, toks) := indexed
  if t.kind ≠ .ident then (index, toks ++ [t])
  else if ¬ shouldBeRenamed t.str newname then (index, toks ++ [t])
  else if t.str ∈ index then (index, toks ++ [{ t with id := index.idxOf t.str }])
  else (index ++ [t.str], toks ++ [{ t with id := index.length }])

def indexToks (newname : Bytes) (toks : List Tok) : List Bytes × List Tok :=
  toks.foldl (indexTok newname) ([], [])

def printRenamed (tokIndex : Int) (newname : Bytes) (toks : List Tok) : Bytes :=
  toks.flatMap fun t => if t.id = tokIndex then newname else t.str

/-- The new name for the tokens of a file. -/
def unusedName (toks : List Tok) : Option Bytes := findUnusedName toks (toks.length + 1) [97]

/-- `rename_toks`. It is `none` where the assertion fails. -/
def renameToks (tokIndex : Int) (toks : List Tok) : Option ClexOutput := do
  let newname ← unusedName toks
  if tokIndex < 0 then none
  else
    let (index, toks) := indexToks newname toks
    if index.length ≤ tokIndex then some ⟨71, []⟩
    else some ⟨51, printRenamed tokIndex newname toks⟩

/-- `clex rename-toks`, with the index that follows it. -/
def clexRenameToks (idx : Int) (arg : Argument) : Option ClexOutput :=
  match startScanner arg with
  | none => some ⟨71, []⟩
  | some s => (yylex s).bind fun s => renameToks idx s.tokList

/-- A nonempty word of lowercase letters, as the new names are. -/
def IsLowerName (name : Bytes) : Prop := name ≠ [] ∧ ∀ c ∈ name, 97 ≤ c ∧ c ≤ 122

/-- The place of a name in the sequence, which counts in base 26 from the end of the name. -/
def nameValue : Bytes → Nat
  | [] => 0
  | c :: cs => (c.toNat - 96) + 26 * nameValue cs

theorem lower_toNat {c : UInt8} (h : 97 ≤ c ∧ c ≤ 122) : 97 ≤ c.toNat ∧ c.toNat ≤ 122 :=
  ⟨UInt8.le_iff_toNat_le.1 h.1, UInt8.le_iff_toNat_le.1 h.2⟩

theorem lower_a : ∀ c ∈ ([97] : Bytes), 97 ≤ c ∧ c ≤ 122 := by decide +kernel

theorem nextNameRev_lower {name : Bytes} (h : ∀ c ∈ name, 97 ≤ c ∧ c ≤ 122) :
    ∀ c ∈ nextNameRev name, 97 ≤ c ∧ c ≤ 122 := by
  induction name with
  | nil => exact lower_a
  | cons c cs ih =>
    obtain ⟨hc, hcs⟩ := List.forall_mem_cons.1 h
    rw [nextNameRev, nextChar]
    by_cases hz : c = 122
    · rw [if_pos hz]
      exact List.forall_mem_cons.2 ⟨lower_a 97 (List.mem_singleton_self 97), ih hcs⟩
    · rw [if_neg hz]
      refine List.forall_mem_cons.2 ⟨?_, hcs⟩
      have hlt : c.toNat < 122 := by
        have hne : c.toNat ≠ 122 := fun he => hz (UInt8.toNat_inj.1 he)
        have hle := (lower_toNat hc).2
        omega
      have hadd : (c + 1).toNat = c.toNat + 1 := by
        rw [UInt8.toNat_add]
        have hone : (1 : UInt8).toNat = 1 := rfl
        omega
      constructor
      · refine UInt8.le_iff_toNat_le.2 ?_
        rw [hadd]
        have hge := (lower_toNat hc).1
        show 97 ≤ c.toNat + 1
        omega
      · refine UInt8.le_iff_toNat_le.2 ?_
        rw [hadd]
        show c.toNat + 1 ≤ 122
        omega

theorem nameValue_nextNameRev {name : Bytes} (h : ∀ c ∈ name, 97 ≤ c ∧ c ≤ 122) :
    nameValue (nextNameRev name) = nameValue name + 1 := by
  induction name with
  | nil => decide
  | cons c cs ih =>
    obtain ⟨hc, hcs⟩ := List.forall_mem_cons.1 h
    rw [nextNameRev, nextChar]
    by_cases hz : c = 122
    · rw [if_pos hz, hz]
      show 97 - 96 + 26 * nameValue (nextNameRev cs) = 122 - 96 + 26 * nameValue cs + 1
      rw [ih hcs]
      omega
    · rw [if_neg hz]
      show (c + 1).toNat - 96 + 26 * nameValue cs = c.toNat - 96 + 26 * nameValue cs + 1
      have hb := lower_toNat hc
      have hadd : (c + 1).toNat = c.toNat + 1 := by
        rw [UInt8.toNat_add]
        have hone : (1 : UInt8).toNat = 1 := rfl
        omega
      omega

theorem nameValue_inj {s t : Bytes} (hs : ∀ c ∈ s, 97 ≤ c ∧ c ≤ 122)
    (ht : ∀ c ∈ t, 97 ≤ c ∧ c ≤ 122) (h : nameValue s = nameValue t) : s = t := by
  induction s generalizing t with
  | nil =>
    cases t with
    | nil => rfl
    | cons d t =>
      have hd := lower_toNat (List.forall_mem_cons.1 ht).1
      rw [nameValue, nameValue] at h
      omega
  | cons c s ih =>
    obtain ⟨hc, hs⟩ := List.forall_mem_cons.1 hs
    have hc' := lower_toNat hc
    cases t with
    | nil =>
      rw [nameValue, nameValue] at h
      omega
    | cons d t =>
      obtain ⟨hd, ht⟩ := List.forall_mem_cons.1 ht
      have hd' := lower_toNat hd
      rw [nameValue, nameValue] at h
      have hhead : c.toNat = d.toNat := by omega
      have htail : nameValue s = nameValue t := by omega
      rw [UInt8.toNat_inj.1 hhead, ih hs ht htail]

theorem nameValue_lt {s t : Bytes} (hs : ∀ c ∈ s, 97 ≤ c ∧ c ≤ 122)
    (ht : ∀ c ∈ t, 97 ≤ c ∧ c ≤ 122) (h : s.length < t.length) : nameValue s < nameValue t := by
  induction s generalizing t with
  | nil =>
    obtain ⟨d, t, rfl⟩ := List.exists_cons_of_length_pos h
    have hd := lower_toNat (List.forall_mem_cons.1 ht).1
    rw [nameValue, nameValue]
    omega
  | cons c s ih =>
    obtain ⟨d, t, rfl⟩ := List.exists_cons_of_length_pos (Nat.zero_lt_of_lt h)
    obtain ⟨hc, hs⟩ := List.forall_mem_cons.1 hs
    obtain ⟨hd, ht⟩ := List.forall_mem_cons.1 ht
    have hc' := lower_toNat hc
    have hd' := lower_toNat hd
    have hlt := ih hs ht (Nat.lt_of_succ_lt_succ h)
    rw [nameValue, nameValue]
    omega

/-- Where a name stands in the sequence. -/
def nameOrder (name : Bytes) : Nat := nameValue name.reverse

theorem IsLowerName.reverse (h : IsLowerName name) : ∀ c ∈ name.reverse, 97 ≤ c ∧ c ≤ 122 :=
  fun c hc => h.2 c (List.mem_reverse.1 hc)

theorem IsLowerName.next (h : IsLowerName name) : IsLowerName (nextName name) := by
  constructor
  · intro hnil
    have hrev := congrArg List.reverse hnil
    rw [nextName, List.reverse_reverse, List.reverse_nil] at hrev
    cases hn : name.reverse with
    | nil =>
      rw [hn] at hrev
      cases hrev
    | cons c cs =>
      rw [hn, nextNameRev] at hrev
      dsimp only at hrev
      split at hrev
      · cases hrev
      · cases hrev
  · intro c hc
    exact nextNameRev_lower h.reverse c (List.mem_reverse.1 hc)

theorem IsLowerName.order_next (h : IsLowerName name) :
    nameOrder (nextName name) = nameOrder name + 1 := by
  rw [nameOrder, nextName, List.reverse_reverse]
  exact nameValue_nextNameRev h.reverse

theorem IsLowerName.order_inj {v w : Bytes} (hv : IsLowerName v) (hw : IsLowerName w)
    (h : nameOrder v = nameOrder w) : v = w :=
  List.reverse_inj.1 (nameValue_inj hv.reverse hw.reverse h)

theorem IsLowerName.order_lt {v w : Bytes} (hv : IsLowerName v) (hw : IsLowerName w)
    (h : v.length < w.length) : nameOrder v < nameOrder w := by
  refine nameValue_lt hv.reverse hw.reverse ?_
  rw [List.length_reverse, List.length_reverse]
  exact h

/-- The name that is found comes behind names that are all in use. -/
structure FirstUnused (toks : List Tok) (start name : Bytes) : Prop where
  lower : IsLowerName name
  unused : ∀ t ∈ toks, t.str ≠ name
  earlier : ∀ v, IsLowerName v → nameOrder start ≤ nameOrder v → nameOrder v < nameOrder name →
    ∃ t ∈ toks, t.str = v

theorem any_str {toks : List Tok} : toks.any (·.str = name) = true ↔ ∃ t ∈ toks, t.str = name := by
  rw [List.any_eq_true]
  simp only [decide_eq_true_eq]

theorem findUnusedName_first {toks : List Tok} (hstart : IsLowerName start)
    (h : findUnusedName toks fuel start = some name) : FirstUnused toks start name := by
  induction fuel generalizing start with
  | zero => cases h
  | succ fuel ih =>
    rw [findUnusedName] at h
    split at h
    · rename_i hany
      have hrest := ih hstart.next h
      refine ⟨hrest.lower, hrest.unused, fun v hv hle hlt => ?_⟩
      rcases Nat.eq_or_lt_of_le hle with he | hlt'
      · rw [← hstart.order_inj hv he]
        exact any_str.1 hany
      · refine hrest.earlier v hv ?_ hlt
        rw [hstart.order_next]
        exact hlt'
    · rename_i hany
      cases h
      refine ⟨hstart, fun t ht he => hany (any_str.2 ⟨t, ht, he⟩), fun v _ hle hlt => ?_⟩
      exact absurd hlt (Nat.not_lt.2 hle)

theorem findUnusedName_none {toks : List Tok} (hstart : IsLowerName start)
    (h : findUnusedName toks fuel start = none) :
    ∀ i < fuel, ∃ v, IsLowerName v ∧ nameOrder v = nameOrder start + i ∧ ∃ t ∈ toks, t.str = v := by
  induction fuel generalizing start with
  | zero => exact fun i hi => absurd hi (Nat.not_lt_zero i)
  | succ fuel ih =>
    rw [findUnusedName] at h
    split at h
    · rename_i hany
      intro i hi
      cases i with
      | zero => exact ⟨start, hstart, rfl, any_str.1 hany⟩
      | succ i =>
        obtain ⟨v, hv, horder, hused⟩ := ih hstart.next h i (Nat.lt_of_succ_lt_succ hi)
        rw [hstart.order_next] at horder
        exact ⟨v, hv, by omega, hused⟩
    · cases h

/-- There are more names than tokens, so one of them is not in use. -/
theorem unusedName_some (toks : List Tok) : ∃ name, unusedName toks = some name := by
  have hstart : IsLowerName [97] := ⟨List.cons_ne_nil _ _, lower_a⟩
  cases hname : unusedName toks with
  | some name => exact ⟨name, rfl⟩
  | none =>
    have hused := findUnusedName_none hstart hname
    have hsub : (List.range' (nameOrder [97]) (toks.length + 1)) ⊆
        toks.map fun t => nameOrder t.str := by
      intro n hn
      obtain ⟨hle, hlt⟩ := List.mem_range'_1.1 hn
      obtain ⟨v, -, horder, t, ht, rfl⟩ := hused (n - nameOrder [97]) (by omega)
      exact List.mem_map.2 ⟨t, ht, by omega⟩
    have hlen := (List.subperm_of_subset List.nodup_range' hsub).length_le
    rw [List.length_range', List.length_map] at hlen
    omega

theorem unusedName_first (h : unusedName toks = some name) : FirstUnused toks [97] name :=
  findUnusedName_first ⟨List.cons_ne_nil _ _, lower_a⟩ h

/-- The names of the index, and each token with the place of its name in it. -/
def Tok.marked (newname : Bytes) (index : List Bytes) (t : Tok) : Tok :=
  if t.kind = .ident ∧ shouldBeRenamed t.str newname = true then
    { t with id := index.idxOf t.str }
  else t

theorem exists_mem_concat {p : α → Prop} {l : List α} {a : α} :
    (∃ b ∈ l ++ [a], p b) ↔ (∃ b ∈ l, p b) ∨ p a := by
  simp only [List.mem_append, List.mem_singleton, or_and_right, exists_or, exists_eq_left]

structure Indexed (newname : Bytes) (toks : List Tok) (indexed : List Bytes × List Tok) :
    Prop where
  nodup : indexed.1.Nodup
  mem_iff : ∀ s, s ∈ indexed.1 ↔
    ∃ t ∈ toks, t.kind = .ident ∧ shouldBeRenamed t.str newname = true ∧ t.str = s
  toks_eq : indexed.2 = toks.map (Tok.marked newname indexed.1)

theorem indexTok_indexed (h : Indexed newname toks indexed) (t : Tok) :
    Indexed newname (toks ++ [t]) (indexTok newname indexed t) := by
  obtain ⟨index, out⟩ := indexed
  obtain ⟨hnodup, hmem, hout⟩ := h
  dsimp only at hnodup hmem hout
  subst hout
  rw [indexTok]
  by_cases hcounts : t.kind = .ident ∧ shouldBeRenamed t.str newname = true
  · rw [if_neg (not_not.2 hcounts.1), if_neg (not_not.2 hcounts.2)]
    by_cases hin : t.str ∈ index
    · rw [if_pos hin]
      refine ⟨hnodup, fun s => ?_, ?_⟩
      · rw [hmem s, exists_mem_concat]
        constructor
        · exact .inl
        · rintro (h | ⟨-, -, rfl⟩)
          · exact h
          · exact (hmem t.str).1 hin
      · rw [List.map_append, List.map_singleton, Tok.marked, if_pos hcounts]
    · rw [if_neg hin]
      refine ⟨?_, fun s => ?_, ?_⟩
      · exact List.nodup_append.2 ⟨hnodup, List.nodup_singleton _, fun a ha b hb he => hin (by
          rw [← List.mem_singleton.1 hb, ← he]
          exact ha)⟩
      · rw [List.mem_append, List.mem_singleton, hmem s, exists_mem_concat]
        constructor
        · rintro (h | rfl)
          · exact .inl h
          · exact .inr ⟨hcounts.1, hcounts.2, rfl⟩
        · rintro (h | ⟨-, -, rfl⟩)
          · exact .inl h
          · exact .inr rfl
      · rw [List.map_append, List.map_singleton]
        refine congrArg₂ (· ++ ·) (List.map_congr_left fun u hu => ?_) (congrArg (fun t => [t]) ?_)
        · rw [Tok.marked, Tok.marked]
          by_cases hu' : u.kind = .ident ∧ shouldBeRenamed u.str newname = true
          · rw [if_pos hu', if_pos hu',
              List.idxOf_append_of_mem ((hmem u.str).2 ⟨u, hu, hu'.1, hu'.2, rfl⟩)]
          · rw [if_neg hu', if_neg hu']
        · rw [Tok.marked, if_pos hcounts, List.idxOf_append_of_notMem hin, List.idxOf_cons_self,
            Nat.add_zero]
  · have hskip : (if t.kind ≠ .ident then (index, toks.map (Tok.marked newname index) ++ [t])
        else if ¬ shouldBeRenamed t.str newname = true then
          (index, toks.map (Tok.marked newname index) ++ [t])
        else if t.str ∈ index then (index, toks.map (Tok.marked newname index) ++
          [{ t with id := index.idxOf t.str }])
        else (index ++ [t.str], toks.map (Tok.marked newname index) ++
          [{ t with id := index.length }])) =
          (index, toks.map (Tok.marked newname index) ++ [t]) := by
      by_cases hk : t.kind = .ident
      · rw [if_neg (not_not.2 hk), if_pos fun hs => hcounts ⟨hk, hs⟩]
      · rw [if_pos hk]
    rw [hskip]
    refine ⟨hnodup, fun s => ?_, ?_⟩
    · rw [hmem s, exists_mem_concat]
      constructor
      · exact .inl
      · rintro (h | ⟨hk, hs, -⟩)
        · exact h
        · exact absurd ⟨hk, hs⟩ hcounts
    · rw [List.map_append, List.map_singleton, Tok.marked, if_neg hcounts]

theorem indexToks_indexed (newname : Bytes) (toks : List Tok) :
    Indexed newname toks (indexToks newname toks) := by
  rw [indexToks]
  induction toks using List.reverseRecOn with
  | nil => exact ⟨List.nodup_nil, by simp, rfl⟩
  | append_singleton toks t ih =>
    rw [List.foldl_append]
    exact indexTok_indexed ih t

theorem Tok.marked_id {t : Tok} {i : Nat} {index : List Bytes} (hid : t.id = -1) (hnodup : index.Nodup)
    (hname : index[i]? = some name) (hcounts : shouldBeRenamed name newname = true) :
    (t.marked newname index).id = i ↔ t.kind = .ident ∧ t.str = name := by
  obtain ⟨hi, hget⟩ := List.getElem?_eq_some_iff.1 hname
  rw [Tok.marked]
  by_cases ht : t.kind = .ident ∧ shouldBeRenamed t.str newname = true
  · rw [if_pos ht]
    constructor
    · intro he
      refine ⟨ht.1, ?_⟩
      have hidx : index.idxOf t.str = i := Int.ofNat.inj he
      have hlt : index.idxOf t.str < index.length := hidx ▸ hi
      rw [← List.getElem_idxOf hlt, ← hget]
      simp only [hidx]
    · rintro ⟨-, rfl⟩
      show ((index.idxOf t.str : Nat) : Int) = i
      rw [← hget, hnodup.idxOf_getElem]
  · rw [if_neg ht, hid]
    constructor
    · intro he
      exact absurd he (by omega)
    · rintro ⟨hk, rfl⟩
      exact absurd ⟨hk, hcounts⟩ ht

end Cvise
