/-
  RacKun.Lib.Directory — values filed by their own names: at most one value for each name.

  A directory says what a table is for, whatever key the table files a value under. A
  table files a directory (`OrdMap.Files`) when its entries are the directory's values,
  each under the key of his name; an insertion in the table is then an entry in the
  directory (`Files.insert`), an erasure strikes a name out (`Files.erase`), as long as no
  two names at hand share a key; and a look-up by key is one by name (`Files.find`).
-/

import Mathlib.Data.Set.Function
import RacKun.Lib.OrdMap

namespace RacKun.Lib

/-- At most one value for each name, filed under its own. -/
structure Directory {ι α : Type} (name : α → ι) where
  get : ι → Option α
  named : ∀ {i v}, get i = some v → name v = i

namespace Directory

variable {ι α : Type} {name : α → ι}

instance : EmptyCollection (Directory name) := ⟨⟨fun _ => none, fun h => by cases h⟩⟩

/-- The names that have a value. -/
def names (d : Directory name) : Set ι := {i | d.get i ≠ none}

@[simp] theorem get_empty (i : ι) : (∅ : Directory name).get i = none := rfl

theorem names_empty : (∅ : Directory name).names = ∅ := by
  ext i
  simp [names]

theorem mem_names {d : Directory name} {i : ι} {v : α} (h : d.get i = some v) : i ∈ d.names := by
  rw [names, Set.mem_ofPred_eq, h]
  exact Option.some_ne_none v

section

variable [DecidableEq ι]

/-- The value replaces whatever has its name. -/
def enter (d : Directory name) (v : α) : Directory name where
  get i := if i = name v then some v else d.get i
  named := by
    intro i w h
    split at h
    · rename_i hi
      rw [← Option.some.inj h]
      exact hi.symm
    · exact d.named h

def strike (d : Directory name) (i : ι) : Directory name where
  get j := if j = i then none else d.get j
  named := by
    intro j w h
    split at h
    · cases h
    · exact d.named h

def enterAll (d : Directory name) (l : List α) : Directory name := l.foldl enter d

theorem get_enter (d : Directory name) (v : α) (i : ι) : (d.enter v).get i =
    if i = name v then some v else d.get i := rfl

theorem get_strike (d : Directory name) (i j : ι) : (d.strike i).get j = if j = i then none else d.get j := rfl

@[simp] theorem get_enter_self (d : Directory name) (v : α) : (d.enter v).get (name v) = some v := by
  rw [get_enter, if_pos rfl]

@[simp] theorem get_strike_self (d : Directory name) (i : ι) : (d.strike i).get i = none := by
  rw [get_strike, if_pos rfl]

theorem get_enter_ne (d : Directory name) {v : α} {i : ι} (h : i ≠ name v) : (d.enter v).get i = d.get i := by
  rw [get_enter, if_neg h]

theorem get_strike_ne (d : Directory name) {i j : ι} (h : j ≠ i) : (d.strike i).get j = d.get j := by
  rw [get_strike, if_neg h]

theorem names_enter (d : Directory name) (v : α) : (d.enter v).names = insert (name v) d.names := by
  ext i
  by_cases hi : i = name v
  · simp [names, hi]
  · simp [names, get_enter_ne d hi, hi]

theorem names_strike (d : Directory name) (i : ι) : (d.strike i).names = d.names \ {i} := by
  ext j
  by_cases hj : j = i
  · simp [names, hj]
  · simp [names, get_strike_ne d hj, hj]

theorem names_enterAll : ∀ (l : List α) (d : Directory name),
    (d.enterAll l).names = d.names ∪ {i | ∃ v ∈ l, name v = i} := by
  intro l
  induction l with
  | nil =>
    intro d
    simp [enterAll]
  | cons v l ih =>
    intro d
    show ((d.enter v).enterAll l).names = _
    rw [ih, names_enter]
    ext i
    simp only [Set.mem_union, Set.mem_insert_iff, Set.mem_ofPred_eq, List.mem_cons, exists_eq_or_imp, eq_comm (a := i)]
    tauto

end

end Directory

/-! ## Tables -/

namespace OrdMap

variable {ι κ α : Type} [LinearOrder κ] {name : α → ι} {key : ι → κ} {m : OrdMap κ α} {d : Directory name}

/-- The entries are the directory's values, each under the key of its name. -/
def Files (key : ι → κ) (m : OrdMap κ α) (d : Directory name) : Prop :=
  ∀ k v, m.find? k = some v ↔ k = key (name v) ∧ d.get (name v) = some v

theorem files_empty : Files key (∅ : OrdMap κ α) (∅ : Directory name) := by
  intro k v
  simp

theorem Files.get (h : m.Files key d) {i : ι} {v : α} (hv : d.get i = some v) : m.find? (key i) = some v := by
  obtain rfl := d.named hv
  exact (h _ v).mpr ⟨rfl, hv⟩

/-- Names are looked up by their keys. -/
theorem Files.find (h : m.Files key d) {i : ι} (hd : Set.InjOn key (Insert.insert i d.names)) :
    m.find? (key i) = d.get i := by
  refine Option.ext fun v => ?_
  constructor
  · intro hv
    obtain ⟨hk, hget⟩ := (h (key i) v).mp hv
    rw [hd (Set.mem_insert i _) (Set.mem_insert_of_mem i (Directory.mem_names hget)) hk]
    exact hget
  · intro hv
    exact h.get hv

theorem Files.insert [DecidableEq ι] (h : m.Files key d) {v : α}
    (hd : Set.InjOn key (Insert.insert (name v) d.names)) : (m.insert (key (name v)) v).Files key (d.enter v) := by
  intro k w
  have hname : d.get (name w) = some w → key (name w) = key (name v) → name w = name v := fun hw he =>
    hd (Set.mem_insert_of_mem _ (Directory.mem_names hw)) (Set.mem_insert _ _) he
  rw [find_insert, Directory.get_enter]
  by_cases hk : k = key (name v)
  · rw [if_pos hk]
    constructor
    · intro hv
      cases hv
      exact ⟨hk, if_pos rfl⟩
    · rintro ⟨hkw, hget⟩
      by_cases hw : name w = name v
      · rw [if_pos hw] at hget
        exact hget
      · rw [if_neg hw] at hget
        exact absurd (hname hget (hkw.symm.trans hk)) hw
  · rw [if_neg hk, h k w]
    refine and_congr_right fun hkw => ?_
    rw [if_neg fun hw => hk (by rw [hkw, hw])]

theorem Files.erase [DecidableEq ι] (h : m.Files key d) {i : ι} (hd : Set.InjOn key (Insert.insert i d.names)) :
    (m.erase (key i)).Files key (d.strike i) := by
  intro k w
  rw [find_erase, Directory.get_strike]
  by_cases hw : name w = i
  · rw [if_pos hw]
    constructor
    · intro hk
      split at hk
      · cases hk
      · rename_i hne
        exact absurd (((h k w).mp hk).1.trans (by rw [hw])) hne
    · rintro ⟨-, hget⟩
      cases hget
  · rw [if_neg hw, ← h k w]
    split
    · rename_i hk
      constructor
      · intro hn
        cases hn
      · intro hk'
        obtain ⟨hkw, hget⟩ := (h k w).mp hk'
        have hwi : name w = i := hd (Set.mem_insert_of_mem _ (Directory.mem_names hget)) (Set.mem_insert _ _)
          (hkw.symm.trans hk)
        exact absurd hwi hw
    · rfl

end OrdMap

end RacKun.Lib
