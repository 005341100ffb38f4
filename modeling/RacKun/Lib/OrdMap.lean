/-
  RacKun.Lib.OrdMap — a finite map whose entries are kept in increasing key order (what
  `std::map` is to the program: lookup, overwriting and non-overwriting insertion,
  erasure, iteration in key order).

  The order is a field of the structure, so a map that is out of order cannot be built.
  A map is determined by its lookups (`ext_find`), and each operation is described by
  what it does to them (`find_insert`, `find_insertNew`, `find_erase`).

  The entries also form a cycle: `succ?` is the entry after a key, or the first entry
  for the last key; `pred?` is its mirror image.
  - `pred_succ`, `succ_pred`: the two are inverse to each other.
  - `succ_key_congr`: only the set of keys decides which key comes
    next, not how the map was built nor what it holds.
  - `succ_closed`: a set of keys with one member, closed under `succ?`, has them all.
  - `succ_at`: by position, `succ?` is the next place, modulo the size.
-/

import Mathlib.Data.List.Lex
import Mathlib.Data.List.Sort
import Mathlib.Data.List.Nodup
import Mathlib.Data.List.TakeWhile

namespace RacKun.Lib

/-! ## Sorted entry lists -/

section Entries

variable {κ α β : Type} [LinearOrder κ]

def Ordered (l : List (κ × α)) : Prop := (l.map Prod.fst).Pairwise (· < ·)

instance (l : List (κ × α)) : Decidable (Ordered l) := inferInstanceAs (Decidable (List.Pairwise _ _))

def look (k : κ) : List (κ × α) → Option α
  | [] => none
  | e :: l => if e.1 = k then some e.2 else look k l

/-- Insert at the key's place, replacing what is there. -/
def put (k : κ) (v : α) : List (κ × α) → List (κ × α)
  | [] => [(k, v)]
  | e :: l => if k < e.1 then (k, v) :: e :: l else if k = e.1 then (k, v) :: l else e :: put k v l

theorem ordered_cons {e : κ × α} {l : List (κ × α)} :
    Ordered (e :: l) ↔ (∀ x ∈ l, e.1 < x.1) ∧ Ordered l := by
  simp [Ordered]

theorem mem_put {k : κ} {v : α} {e : κ × α} : ∀ {l : List (κ × α)}, e ∈ put k v l → e = (k, v) ∨ e ∈ l := by
  intro l
  induction l with
  | nil => intro h; simpa [put] using h
  | cons x l ih =>
    intro h
    simp only [put] at h
    split at h
    · simpa using h
    · split at h
      · rcases List.mem_cons.mp h with h | h
        · exact Or.inl h
        · exact Or.inr (List.mem_cons_of_mem _ h)
      · rcases List.mem_cons.mp h with h | h
        · exact Or.inr (h ▸ List.mem_cons_self)
        · exact (ih h).imp_right (List.mem_cons_of_mem _)

theorem put_ordered (k : κ) (v : α) : ∀ {l : List (κ × α)}, Ordered l → Ordered (put k v l) := by
  intro l
  induction l with
  | nil => intro _; simp [put, Ordered]
  | cons x l ih =>
    intro h
    obtain ⟨hx, hl⟩ := ordered_cons.mp h
    simp only [put]
    split
    · rename_i hk
      refine ordered_cons.mpr ⟨fun y hy => ?_, h⟩
      rcases List.mem_cons.mp hy with rfl | hy
      · exact hk
      · exact lt_trans hk (hx y hy)
    · rename_i hk
      split
      · rename_i he
        exact ordered_cons.mpr ⟨fun y hy => he ▸ hx y hy, hl⟩
      · rename_i hne
        refine ordered_cons.mpr ⟨fun y hy => ?_, ih hl⟩
        rcases mem_put hy with rfl | hy
        · exact lt_of_le_of_ne (not_lt.mp hk) (Ne.symm hne)
        · exact hx y hy

theorem look_put (k : κ) (v : α) (q : κ) : ∀ l : List (κ × α), look q (put k v l) = if q = k then some v else look q l := by
  intro l
  induction l with
  | nil => simp only [put, look, eq_comm]
  | cons x l ih =>
    simp only [put]
    split
    · by_cases h : q = k
      · simp [look, h]
      · rw [if_neg h, look, if_neg (fun e => h e.symm)]
    · split
      · rename_i hk
        by_cases h : q = k
        · simp [look, h]
        · simp only [look, if_neg (fun e => h e.symm : ¬k = q), ← hk, if_neg h]
      · rename_i hne
        by_cases hx : x.1 = q
        · have : q ≠ k := fun h => hne (h ▸ hx.symm)
          simp [look, hx, this]
        · simp [look, hx, ih]

theorem look_filter (k q : κ) : ∀ l : List (κ × α),
    look q (l.filter fun e => decide (e.1 ≠ k)) = if q = k then none else look q l := by
  intro l
  induction l with
  | nil => simp [look]
  | cons x l ih =>
    by_cases hx : x.1 = k
    · by_cases h : q = k
      · simp [hx, h] at ih ⊢; exact ih
      · have : x.1 ≠ q := fun e => h (e ▸ hx)
        simp only [List.filter_cons, hx, ne_eq, not_true_eq_false, decide_false, Bool.false_eq_true, if_false, ih,
          look, h]
        rw [if_neg (fun e => h e.symm)]
    · simp only [List.filter_cons, ne_eq, hx, not_false_eq_true, decide_true, if_true, look]
      by_cases hq : x.1 = q
      · have : q ≠ k := fun e => hx (hq.trans e)
        simp [hq, this]
      · simp only [hq, if_false, ih]

theorem look_some_iff {l : List (κ × α)} (h : Ordered l) {k : κ} {v : α} : look k l = some v ↔ (k, v) ∈ l := by
  induction l with
  | nil => simp [look]
  | cons x l ih =>
    obtain ⟨hx, hl⟩ := ordered_cons.mp h
    simp only [look]
    split
    · rename_i hk
      constructor
      · intro e; cases e; exact hk ▸ List.mem_cons_self
      · intro hm
        rcases List.mem_cons.mp hm with rfl | hm
        · rfl
        · exact absurd hk (ne_of_lt (hx _ hm))
    · rename_i hk
      rw [ih hl]
      refine ⟨List.mem_cons_of_mem _, fun hm => ?_⟩
      rcases List.mem_cons.mp hm with rfl | hm
      · exact absurd rfl hk
      · exact hm

/-- Two ordered lists with the same entries are the same list. -/
theorem ordered_ext {l₁ l₂ : List (κ × α)} (h₁ : Ordered l₁) (h₂ : Ordered l₂)
    (h : ∀ e, e ∈ l₁ ↔ e ∈ l₂) : l₁ = l₂ := by
  have p₁ : l₁.Pairwise (fun a b => a.1 < b.1) := List.pairwise_map.mp h₁
  have p₂ : l₂.Pairwise (fun a b => a.1 < b.1) := List.pairwise_map.mp h₂
  have irr : ∀ a b : κ × α, a.1 < b.1 → a ≠ b := fun a b hab e => absurd (e ▸ hab) (lt_irrefl _)
  refine List.Perm.eq_of_pairwise (fun a b _ _ hab hba => absurd hab (lt_asymm hba)) p₁ p₂ ?_
  exact (List.perm_ext_iff_of_nodup (p₁.imp (irr _ _)) (p₂.imp (irr _ _))).mpr h

end Entries

/-! ## The map -/

structure OrdMap (κ α : Type) [LinearOrder κ] where
  entries : List (κ × α)
  ordered : Ordered entries

namespace OrdMap

variable {κ α : Type} [LinearOrder κ]

instance [DecidableEq α] : DecidableEq (OrdMap κ α) := fun m n =>
  decidable_of_iff (m.entries = n.entries) ⟨fun h => by cases m; cases n; simpa using h, fun h => h ▸ rfl⟩

instance : EmptyCollection (OrdMap κ α) := ⟨⟨[], by simp [Ordered]⟩⟩

instance : Inhabited (OrdMap κ α) := ⟨∅⟩

def find? (m : OrdMap κ α) (k : κ) : Option α := look k m.entries

def contains (m : OrdMap κ α) (k : κ) : Bool := (m.find? k).isSome

def keys (m : OrdMap κ α) : List κ := m.entries.map Prod.fst

def values (m : OrdMap κ α) : List α := m.entries.map Prod.snd

def size (m : OrdMap κ α) : Nat := m.entries.length

/-- `m[k] = v`. -/
def insert (m : OrdMap κ α) (k : κ) (v : α) : OrdMap κ α := ⟨put k v m.entries, put_ordered k v m.ordered⟩

/-- `m.insert(k, v)`: an existing entry stays. -/
def insertNew (m : OrdMap κ α) (k : κ) (v : α) : OrdMap κ α := if m.contains k then m else m.insert k v

def erase (m : OrdMap κ α) (k : κ) : OrdMap κ α :=
  ⟨m.entries.filter fun e => decide (e.1 ≠ k),
    List.Pairwise.sublist (List.Sublist.map _ List.filter_sublist) m.ordered⟩

/-- `m.insert(n.begin(), n.end())`. -/
def union (m n : OrdMap κ α) : OrdMap κ α := n.entries.foldl (fun m e => m.insertNew e.1 e.2) m

@[simp] theorem find_empty (k : κ) : (∅ : OrdMap κ α).find? k = none := rfl

@[simp] theorem entries_empty : (∅ : OrdMap κ α).entries = [] := rfl

@[grind =] theorem find_insert (m : OrdMap κ α) (k : κ) (v : α) (q : κ) :
    (m.insert k v).find? q = if q = k then some v else m.find? q := look_put k v q m.entries

@[grind =] theorem find_erase (m : OrdMap κ α) (k q : κ) :
    (m.erase k).find? q = if q = k then none else m.find? q := look_filter k q m.entries

@[simp] theorem find_insert_self (m : OrdMap κ α) (k : κ) (v : α) : (m.insert k v).find? k = some v := by
  simp [find_insert]

@[simp] theorem find_erase_self (m : OrdMap κ α) (k : κ) : (m.erase k).find? k = none := by
  simp [find_erase]

theorem find_insert_ne (m : OrdMap κ α) {k q : κ} (v : α) (h : q ≠ k) : (m.insert k v).find? q = m.find? q := by
  rw [find_insert, if_neg h]

theorem find_erase_ne (m : OrdMap κ α) {k q : κ} (h : q ≠ k) : (m.erase k).find? q = m.find? q := by
  rw [find_erase, if_neg h]

theorem contains_iff {m : OrdMap κ α} {k : κ} : m.contains k = true ↔ ∃ v, m.find? k = some v :=
  Option.isSome_iff_exists

theorem not_contains_iff {m : OrdMap κ α} {k : κ} : m.contains k = false ↔ m.find? k = none :=
  Option.isSome_eq_false_iff.trans Option.isNone_iff_eq_none

@[grind =] theorem find_insertNew (m : OrdMap κ α) (k : κ) (v : α) (q : κ) :
    (m.insertNew k v).find? q = if q = k then some ((m.find? k).getD v) else m.find? q := by
  unfold insertNew
  split
  · rename_i h
    obtain ⟨w, hw⟩ := contains_iff.mp h
    split
    · rename_i e; simp [e, hw]
    · rfl
  · rename_i h
    have hn : m.find? k = none := not_contains_iff.mp (by simpa using h)
    rw [find_insert, hn]; rfl

theorem find_insert_some {m : OrdMap κ α} {k q : κ} {v w : α} (h : (m.insert k v).find? q = some w) :
    q = k ∧ w = v ∨ m.find? q = some w := by
  rw [find_insert] at h
  split at h
  · rename_i hq
    exact Or.inl ⟨hq, (Option.some.inj h).symm⟩
  · exact Or.inr h

theorem find_insertNew_some {m : OrdMap κ α} {k q : κ} {v w : α} (h : (m.insertNew k v).find? q = some w) :
    q = k ∧ w = v ∨ m.find? q = some w := by
  unfold insertNew at h
  split at h
  · exact Or.inr h
  · exact find_insert_some h

theorem find_erase_some {m : OrdMap κ α} {k q : κ} {w : α} (h : (m.erase k).find? q = some w) :
    q ≠ k ∧ m.find? q = some w := by
  rw [find_erase] at h
  split at h
  · cases h
  · rename_i hq
    exact ⟨hq, h⟩

theorem mem_entries {m : OrdMap κ α} {k : κ} {v : α} : (k, v) ∈ m.entries ↔ m.find? k = some v :=
  (look_some_iff m.ordered).symm

theorem mem_keys {m : OrdMap κ α} {k : κ} : k ∈ m.keys ↔ ∃ v, m.find? k = some v := by
  simp only [keys, List.mem_map, Prod.exists, exists_and_right, exists_eq_right, mem_entries]

theorem mem_values {m : OrdMap κ α} {v : α} : v ∈ m.values ↔ ∃ k, m.find? k = some v := by
  simp only [values, List.mem_map, Prod.exists, exists_eq_right, mem_entries]

theorem ext_find {m n : OrdMap κ α} (h : ∀ k, m.find? k = n.find? k) : m = n := by
  have : m.entries = n.entries := ordered_ext m.ordered n.ordered fun ⟨k, v⟩ => by
    rw [mem_entries, mem_entries, h k]
  cases m; cases n; simpa using this

theorem keys_nodup (m : OrdMap κ α) : m.keys.Nodup := m.ordered.imp ne_of_lt

theorem mem_values_insert {m : OrdMap κ α} {k : κ} {v w : α} (h : w ∈ (m.insert k v).values) :
    w = v ∨ w ∈ m.values := by
  obtain ⟨q, hq⟩ := mem_values.mp h
  exact (find_insert_some hq).imp And.right fun hq => mem_values.mpr ⟨q, hq⟩

theorem mem_values_insertNew {m : OrdMap κ α} {k : κ} {v w : α} (h : w ∈ (m.insertNew k v).values) :
    w = v ∨ w ∈ m.values := by
  unfold insertNew at h
  split at h
  · exact Or.inr h
  · exact mem_values_insert h

theorem mem_values_erase {m : OrdMap κ α} {k : κ} {w : α} (h : w ∈ (m.erase k).values) : w ∈ m.values := by
  obtain ⟨q, hq⟩ := mem_values.mp h
  exact mem_values.mpr ⟨q, (find_erase_some hq).2⟩

theorem not_mem_values_erase {m : OrdMap κ α} {k : κ} {v : α} :
    v ∉ (m.erase k).values ↔ ∀ e ∈ m.entries, e.2 = v → e.1 = k := by
  constructor
  · rintro h ⟨k', w⟩ he rfl
    by_contra hk
    refine h (mem_values.mpr ⟨k', ?_⟩)
    rw [find_erase_ne _ hk]
    exact mem_entries.mp he
  · intro h hv
    obtain ⟨k', hk'⟩ := mem_values.mp hv
    obtain ⟨hne, hk'⟩ := find_erase_some hk'
    exact hne (h (k', v) (mem_entries.mpr hk') rfl)

/-- The key is this value's, and the value has no other key. -/
def Sole (m : OrdMap κ α) (k : κ) (v : α) : Prop := ∀ e ∈ m.entries, e.1 = k ↔ e.2 = v

instance [DecidableEq α] (m : OrdMap κ α) (k : κ) (v : α) : Decidable (m.Sole k v) :=
  inferInstanceAs (Decidable (∀ e ∈ m.entries, _))

theorem mem_erase {m : OrdMap κ α} {k : κ} {e : κ × α} : e ∈ (m.erase k).entries ↔ e ∈ m.entries ∧ e.1 ≠ k := by
  obtain ⟨q, v⟩ := e
  rw [mem_entries, mem_entries, find_erase]
  split
  · rename_i h
    simp [h]
  · rename_i h
    simp [h]

/-- Erasing a key removes one value and nothing else exactly when it is that value's only key. -/
theorem erase_sole {m : OrdMap κ α} {k : κ} {v : α} :
    v ∉ (m.erase k).values ∧ (∀ e ∈ m.entries, e.2 ≠ v → e ∈ (m.erase k).entries) ↔ m.Sole k v := by
  rw [not_mem_values_erase]
  constructor
  · rintro ⟨hv, hk⟩ e he
    refine ⟨fun hek => ?_, hv e he⟩
    by_contra hne
    exact (mem_erase.mp (hk e he hne)).2 hek
  · intro h
    exact ⟨fun e he => (h e he).mpr, fun e he hne => mem_erase.mpr ⟨he, fun hek => hne ((h e he).mp hek)⟩⟩

theorem erase_absent {m : OrdMap κ α} {k : κ} (h : m.find? k = none) : m.erase k = m :=
  ext_find fun q => by
    rw [find_erase]
    split
    · rename_i e; rw [e, h]
    · rfl

theorem entries_eq_nil {m : OrdMap κ α} : m.entries = [] ↔ ∀ k, m.find? k = none := by
  constructor
  · intro h k; simp [find?, h, look]
  · intro h
    refine List.eq_nil_iff_forall_not_mem.mpr fun ⟨k, v⟩ hm => ?_
    rw [mem_entries, h k] at hm; cases hm

theorem size_eq_zero {m : OrdMap κ α} : m.size = 0 ↔ m = ∅ := by
  constructor
  · intro h
    exact ext_find fun k => entries_eq_nil.mp (List.length_eq_zero_iff.mp h) k
  · rintro rfl
    rfl

theorem find_union (m n : OrdMap κ α) (q : κ) : (m.union n).find? q = (m.find? q).or (n.find? q) := by
  unfold union find?
  suffices ∀ (l : List (κ × α)) (m : OrdMap κ α),
      look q (l.foldl (fun m e => m.insertNew e.1 e.2) m).entries = (look q m.entries).or (look q l) from this _ m
  intro l
  induction l with
  | nil => intro m; simp [look]
  | cons e l ih =>
    intro m
    rw [List.foldl_cons, ih]
    have := find_insertNew m e.1 e.2 q
    simp only [find?] at this
    rw [this, look]
    by_cases h : q = e.1
    · rw [if_pos h, if_pos h.symm, h]
      cases look e.1 m.entries <;> rfl
    · rw [if_neg h, if_neg (fun c => h c.symm)]

theorem mem_values_union {m n : OrdMap κ α} {w : α} (h : w ∈ (m.union n).values) : w ∈ m.values ∨ w ∈ n.values := by
  obtain ⟨q, hq⟩ := mem_values.mp h
  rw [find_union, Option.or_eq_some_iff] at hq
  exact hq.imp (fun hq => mem_values.mpr ⟨q, hq⟩) fun hq => mem_values.mpr ⟨q, hq.2⟩

/-! ## The cycle of entries -/

/-- The entry after `k`, the first one when `k` is the last key. -/
def succ? (m : OrdMap κ α) (k : κ) : Option (κ × α) :=
  match m.entries.dropWhile fun e => decide (e.1 ≠ k) with
  | [] => none
  | [_] => m.entries.head?
  | _ :: e :: _ => some e

/-- The entry before `k`, the last one when `k` is the first key. -/
def pred? (m : OrdMap κ α) (k : κ) : Option (κ × α) :=
  if m.contains k then
    match (m.entries.takeWhile fun e => decide (e.1 ≠ k)).getLast? with
    | some e => some e
    | none => m.entries.getLast?
  else none

theorem split_at {m : OrdMap κ α} {k : κ} {v : α} (h : m.find? k = some v) :
    ∃ l₁ l₂, m.entries = l₁ ++ (k, v) :: l₂ ∧ ∀ e ∈ l₁, e.1 ≠ k := by
  obtain ⟨l₁, l₂, he⟩ := List.append_of_mem (mem_entries.mpr h)
  refine ⟨l₁, l₂, he, fun e hm => ?_⟩
  have ho : (m.entries.map Prod.fst).Pairwise (· < ·) := m.ordered
  rw [he, List.map_append, List.pairwise_append] at ho
  exact ne_of_lt (ho.2.2 _ (List.mem_map_of_mem hm) _ (by simp))

theorem dropWhile_split {l₁ : List (κ × α)} (l₂ : List (κ × α)) {k : κ} (v : α) (h : ∀ e ∈ l₁, e.1 ≠ k) :
    (l₁ ++ (k, v) :: l₂).dropWhile (fun e => decide (e.1 ≠ k)) = (k, v) :: l₂ := by
  rw [List.dropWhile_append_of_pos (fun e he => by simpa using h e he)]
  simp

theorem takeWhile_split {l₁ : List (κ × α)} (l₂ : List (κ × α)) {k : κ} (v : α) (h : ∀ e ∈ l₁, e.1 ≠ k) :
    (l₁ ++ (k, v) :: l₂).takeWhile (fun e => decide (e.1 ≠ k)) = l₁ := by
  rw [List.takeWhile_append_of_pos (fun e he => by simpa using h e he)]
  simp

theorem split_keys_ne {m : OrdMap κ α} {l₁ l₂ : List (κ × α)} {e : κ × α} (he : m.entries = l₁ ++ e :: l₂) :
    ∀ x ∈ l₁, x.1 ≠ e.1 := by
  intro x hx
  have ho : (m.entries.map Prod.fst).Pairwise (· < ·) := m.ordered
  rw [he, List.map_append, List.pairwise_append] at ho
  exact ne_of_lt (ho.2.2 _ (List.mem_map_of_mem hx) _ (by simp))

/-- The successor, read off any split of the entries at `e`. -/
theorem succ_split {m : OrdMap κ α} {l₁ l₂ : List (κ × α)} {e : κ × α} (he : m.entries = l₁ ++ e :: l₂) :
    m.succ? e.1 = l₂.head?.or (l₁ ++ [e]).head? := by
  obtain ⟨k, v⟩ := e
  have hd := dropWhile_split l₂ v (split_keys_ne he)
  unfold succ?
  rw [he, hd]
  cases l₂ <;> rfl

theorem pred_split {m : OrdMap κ α} {l₁ l₂ : List (κ × α)} {e : κ × α} (he : m.entries = l₁ ++ e :: l₂) :
    m.pred? e.1 = l₁.getLast?.or (e :: l₂).getLast? := by
  obtain ⟨k, v⟩ := e
  have ht := takeWhile_split l₂ v (split_keys_ne he)
  have hc : m.contains k = true := contains_iff.mpr ⟨v, mem_entries.mp (by rw [he]; simp)⟩
  unfold pred?
  rw [if_pos hc, he, ht]
  cases h : l₁.getLast? with
  | some x => rfl
  | none =>
    have : l₁ = [] := List.getLast?_eq_none_iff.mp h
    simp [this]

theorem succ_mem {m : OrdMap κ α} {k : κ} {e : κ × α} (h : m.succ? k = some e) : e ∈ m.entries := by
  unfold succ? at h
  split at h
  · cases h
  · exact List.mem_of_head? h
  · rename_i hd
    injection h with h
    subst h
    exact List.dropWhile_sublist _ |>.subset (by rw [hd]; simp)

theorem pred_mem {m : OrdMap κ α} {k : κ} {e : κ × α} (h : m.pred? k = some e) : e ∈ m.entries := by
  unfold pred? at h
  split at h
  · split at h
    · rename_i hl
      injection h with h
      subst h
      exact List.takeWhile_sublist _ |>.subset (List.mem_of_getLast? hl)
    · exact List.mem_of_getLast? h
  · cases h

theorem succ_none_iff {m : OrdMap κ α} {k : κ} : m.succ? k = none ↔ m.find? k = none := by
  constructor
  · intro h
    cases hk : m.find? k with
    | none => rfl
    | some v =>
      obtain ⟨l₁, l₂, he, -⟩ := split_at hk
      rw [succ_split he] at h
      cases l₂ <;> cases l₁ <;> simp at h
  · intro h
    unfold succ?
    have : m.entries.dropWhile (fun e => decide (e.1 ≠ k)) = [] := by
      simp only [List.dropWhile_eq_nil_iff, decide_eq_true_eq]
      rintro ⟨q, v⟩ hm rfl
      rw [mem_entries, h] at hm
      cases hm
    rw [this]

theorem pred_none_iff {m : OrdMap κ α} {k : κ} : m.pred? k = none ↔ m.find? k = none := by
  constructor
  · intro h
    cases hk : m.find? k with
    | none => rfl
    | some v =>
      obtain ⟨l₁, l₂, he, -⟩ := split_at hk
      rw [pred_split he] at h
      cases hl : l₁.getLast? <;> simp [hl] at h
  · intro h
    unfold pred?
    rw [if_neg (by simp [not_contains_iff.mpr h])]

/-- Going forward and back again: `succ?` and `pred?` are inverse to each other. -/
theorem pred_succ {m : OrdMap κ α} {k : κ} {v : α} {e : κ × α} (hk : m.find? k = some v)
    (h : m.succ? k = some e) : m.pred? e.1 = some (k, v) := by
  obtain ⟨l₁, l₂, he, -⟩ := split_at hk
  rw [succ_split he] at h
  cases l₂ with
  | cons x l₂ =>
    obtain rfl : x = e := by simpa using h
    have he' : m.entries = (l₁ ++ [(k, v)]) ++ x :: l₂ := by rw [he]; simp
    rw [pred_split he']
    simp
  | nil =>
    cases l₁ with
    | nil =>
      obtain rfl : (k, v) = e := by simpa using h
      rw [pred_split he]
      simp
    | cons x l₁ =>
      obtain rfl : x = e := by simpa using h
      have he' : m.entries = [] ++ x :: (l₁ ++ [(k, v)]) := by rw [he]; simp
      rw [pred_split he', ← List.cons_append, List.getLast?_concat]
      rfl

theorem succ_pred {m : OrdMap κ α} {k : κ} {v : α} {e : κ × α} (hk : m.find? k = some v)
    (h : m.pred? k = some e) : m.succ? e.1 = some (k, v) := by
  obtain ⟨l₁, l₂, he, -⟩ := split_at hk
  rw [pred_split he] at h
  rcases List.eq_nil_or_concat l₁ with rfl | ⟨l₀, x, rfl⟩
  · rcases List.eq_nil_or_concat l₂ with rfl | ⟨l₀, x, rfl⟩
    · obtain rfl : (k, v) = e := by simpa using h
      rw [succ_split he]
      simp
    · obtain rfl : x = e := by
        rw [List.getLast?_nil, Option.none_or, List.concat_eq_append, ← List.cons_append, List.getLast?_concat] at h
        injection h
      have he' : m.entries = ((k, v) :: l₀) ++ x :: [] := by rw [he]; simp
      rw [succ_split he']
      simp
  · obtain rfl : x = e := by simpa using h
    have he' : m.entries = l₀ ++ x :: (k, v) :: l₂ := by rw [he]; simp
    rw [succ_split he']
    simp

/-- In a map with a second entry, no key is its own successor. -/
theorem succ_ne {m : OrdMap κ α} {k : κ} {e : κ × α} (hs : 1 < m.size) (h : m.succ? k = some e) : e.1 ≠ k := by
  cases hk : m.find? k with
  | none => rw [succ_none_iff.mpr hk] at h; cases h
  | some v =>
    obtain ⟨l₁, l₂, he, hne⟩ := split_at hk
    rw [succ_split he] at h
    cases l₂ with
    | cons x l₂ =>
      obtain rfl : x = e := by simpa using h
      have he' : m.entries = (l₁ ++ [(k, v)]) ++ x :: l₂ := by rw [he]; simp
      exact fun hc => split_keys_ne he' (k, v) (by simp) hc.symm
    | nil =>
      cases l₁ with
      | nil => simp [size, he] at hs
      | cons x l₁ =>
        obtain rfl : x = e := by simpa using h
        exact hne x (by simp)

theorem pred_ne {m : OrdMap κ α} {k : κ} {e : κ × α} (hs : 1 < m.size) (h : m.pred? k = some e) : e.1 ≠ k := by
  cases hk : m.find? k with
  | none => rw [pred_none_iff.mpr hk] at h; cases h
  | some v =>
    intro hc
    have := succ_ne hs (succ_pred hk h)
    exact this hc.symm

/-! ### The cycle depends on the keys only -/

/-- `succ?` on the bare list of keys. -/
def nextKey (ks : List κ) (k : κ) : Option κ :=
  match ks.dropWhile fun q => decide (q ≠ k) with
  | [] => none
  | [_] => ks.head?
  | _ :: q :: _ => some q

theorem succ_key (m : OrdMap κ α) (k : κ) : (m.succ? k).map Prod.fst = nextKey m.keys k := by
  have hd : m.keys.dropWhile (fun q => decide (q ≠ k)) =
      (m.entries.dropWhile fun e => decide (e.1 ≠ k)).map Prod.fst := by
    rw [keys, List.dropWhile_map]; rfl
  unfold succ? nextKey
  rw [hd]
  split <;> rename_i h <;> rw [h] <;> simp [keys]

theorem keys_eq_of_mem {m n : OrdMap κ α} (h : ∀ k, k ∈ m.keys ↔ k ∈ n.keys) : m.keys = n.keys :=
  List.Perm.eq_of_pairwise (fun _ _ _ _ hab hba => absurd hab (lt_asymm hba)) m.ordered n.ordered
    ((List.perm_ext_iff_of_nodup m.keys_nodup n.keys_nodup).mpr h)

theorem succ_key_congr {m n : OrdMap κ α} (h : ∀ k, k ∈ m.keys ↔ k ∈ n.keys) (k : κ) :
    (m.succ? k).map Prod.fst = (n.succ? k).map Prod.fst := by
  rw [succ_key, succ_key, keys_eq_of_mem h]

/-! ### Going round -/

/-- The successor by position. -/
theorem succ_at {m : OrdMap κ α} {i : Nat} {e : κ × α} (h : m.entries[i]? = some e) :
    m.succ? e.1 = m.entries[(i + 1) % m.size]? := by
  obtain ⟨hi, he⟩ := List.getElem?_eq_some_iff.mp h
  have hsplit : m.entries = m.entries.take i ++ e :: m.entries.drop (i + 1) := by
    rw [← he, List.getElem_cons_drop, List.take_append_drop]
  rw [succ_split hsplit]
  by_cases hl : i + 1 < m.size
  · rw [Nat.mod_eq_of_lt hl, List.head?_drop, List.getElem?_eq_getElem hl, Option.some_or]
  · have hn : i + 1 = m.size := Nat.le_antisymm hi (Nat.not_lt.mp hl)
    rw [hn, Nat.mod_self, List.drop_eq_nil_of_le (Nat.le_refl m.size), List.head?_nil, Option.none_or]
    have hhead : (m.entries.take i ++ e :: m.entries.drop (i + 1)).head? = m.entries[0]? := by
      rw [← hsplit, List.head?_eq_getElem?]
    rw [← hhead]
    cases m.entries.take i <;> rfl

theorem closed_after {m : OrdMap κ α} {P : κ → Prop}
    (hstep : ∀ k e, P k → m.succ? k = some e → P e.1) :
    ∀ {l₂ l₁ : List (κ × α)} {e : κ × α}, m.entries = l₁ ++ e :: l₂ → P e.1 → ∀ x ∈ l₂, P x.1 := by
  intro l₂
  induction l₂ with
  | nil => intro _ _ _ _ x hx; cases hx
  | cons y l₂ ih =>
    intro l₁ e he hP x hx
    have hy : P y.1 := hstep e.1 y hP (by rw [succ_split he]; rfl)
    rcases List.mem_cons.mp hx with rfl | hx
    · exact hy
    · have he' : m.entries = (l₁ ++ [e]) ++ y :: l₂ := by rw [he]; simp
      exact ih he' hy x hx

/-- A set of keys that has one member and is closed under `succ?` has them all. -/
theorem succ_closed {m : OrdMap κ α} {P : κ → Prop} {k : κ} {v : α} (hk : m.find? k = some v) (hP : P k)
    (hstep : ∀ k e, P k → m.succ? k = some e → P e.1) : ∀ q ∈ m.keys, P q := by
  obtain ⟨l₁, l₂, he, -⟩ := split_at hk
  have hafter := closed_after hstep he hP
  -- the last entry is `k` or after it, so the first entry is its successor
  have hfirst : ∀ x, m.entries.head? = some x → P x.1 := by
    intro x hx
    rcases List.eq_nil_or_concat l₂ with rfl | ⟨l₀, y, rfl⟩
    · exact hstep k x hP (by rw [succ_split he]; simpa [he] using hx)
    · have he' : m.entries = (l₁ ++ (k, v) :: l₀) ++ y :: [] := by rw [he]; simp
      exact hstep y.1 x (hafter y (by simp)) (by rw [succ_split he']; simpa [he] using hx)
  intro q hq
  obtain ⟨w, hw⟩ := mem_keys.mp hq
  have hm := mem_entries.mpr hw
  cases hm' : m.entries with
  | nil => rw [hm'] at hm; cases hm
  | cons x l =>
    have hx : P x.1 := hfirst x (by rw [hm']; rfl)
    rw [hm'] at hm
    rcases List.mem_cons.mp hm with rfl | hm
    · exact hx
    · have he' : m.entries = [] ++ x :: l := hm'
      exact closed_after hstep he' hx _ hm

end OrdMap

end RacKun.Lib
