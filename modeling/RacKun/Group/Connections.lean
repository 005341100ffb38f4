/-
  RacKun.Group.Connections — the members of a group and its rings, and which connection
  each holds for an ID.

  `add_peer` inserts in the members without replacing and in the rings replacing: a second
  connection for a member's ID goes to the rings only. A channel is built from the
  members (`add_to_rings(group)`), so there the first connection comes back.

  - `change_kept`: what one call must not do for members and rings to stay the same.
  - `grown_kept`: and what that means for a whole history, read both ways.
-/

import RacKun.Group.Cycle

namespace RacKun

open Lib (OrdMap)

variable [Platform]

namespace Group

section

variable (getId : PeerRef → Bytes)

def change (g : Group) : PeerOp → Group
  | .addPeer p => g.addPeer getId p
  | .removePeer p => (g.removePeer getId p).2

def grow (id : Bytes) (ops : List PeerOp) : Group := ops.foldl (change getId) (new id)

omit getId in
/-- The object stored for a member is the one under his ID in every ring. -/
def OneConnection (g : Group) : Prop :=
  ∀ id p, g.peers.find? id = some p → ∀ r ∈ g.rings, r.ring.find? (r.createKey id) = some p

/-- Whatever group the members are added to, its rings hold them as the group's own do. -/
def SameInChannels (g : Group) : Prop :=
  ∀ (channel : Group) (id : Bytes), g.peers.contains id = true →
    ∀ r ∈ g.rings, ∀ r' ∈ (channel.addGroupToRings getId g).rings, r'.index = r.index →
      r'.ring.find? (r'.createKey id) = r.ring.find? (r.createKey id)

/-- No other member has the key of this ID in a ring. -/
def Unshared (g : Group) (id : Bytes) : Prop :=
  ∀ i < RINGS_NB, ∀ m, g.peers.contains m = true → m ≠ id → makeHash (m ++ itos i) ≠ makeHash (id ++ itos i)

/-- A call that keeps one connection for each member: nobody comes in again under another
    object, and no key is shared. -/
def Fits (g : Group) : PeerOp → Prop
  | .addPeer p => (∀ q, g.peers.find? (getId p) = some q → q = p) ∧ g.Unshared (getId p)
  | .removePeer p => g.Unshared (getId p)

end

variable {getId : PeerRef → Bytes} {g : Group}

/-! ## One call -/

theorem change_keyed (h : Keyed getId g.peers) (op : PeerOp) : Keyed getId (g.change getId op).peers := by
  cases op with
  | addPeer p => exact keyed_insertNew h p
  | removePeer p =>
    intro e he
    exact h e (OrdMap.mem_erase.mp he).1

omit [Platform] in
theorem keyed_find (h : Keyed getId g.peers) {id : Bytes} {p : PeerRef} (hp : g.peers.find? id = some p) :
    getId p = id := (h (id, p) (OrdMap.mem_entries.mpr hp)).symm

theorem unshared_key {id m : Bytes} (h : g.Unshared id) (hm : g.peers.contains m = true) (hne : m ≠ id) {r : Ring}
    (hr : r ∈ g.rings) : r.createKey m ≠ r.createKey id := h r.index (index_lt hr) m hm hne

/-- Another member with the same key would be somebody else in one of the rings. -/
theorem unshared_of_rings {id : Bytes} (h : ∀ m p, m ≠ id → g.peers.find? m = some p → ∀ r ∈ g.rings,
    r.createKey m ≠ r.createKey id) : g.Unshared id := by
  intro i hi m hm hne
  obtain ⟨p, hp⟩ := OrdMap.contains_iff.mp hm
  obtain ⟨r, hr, rfl⟩ := g.ring_at hi
  exact h m p hne hp r hr

theorem add_kept (hk : Keyed getId g.peers) (h : g.OneConnection) (p : PeerRef) :
    (g.addPeer getId p).OneConnection ↔ g.Fits getId (.addPeer p) := by
  constructor
  · intro hnew
    refine ⟨?_, ?_⟩
    · intro q hq
      obtain ⟨r, hr, -⟩ := g.ring_at (i := 0) (by decide)
      have hold : (g.peers.insertNew (getId p) p).find? (getId p) = some q := by
        rw [OrdMap.find_insertNew, if_pos rfl, hq, Option.getD_some]
      have hring : (r.ring.insert (r.createKey (getId p)) p).find? (r.createKey (getId p)) = some q :=
        hnew (getId p) q hold _ (List.mem_map_of_mem hr)
      rw [OrdMap.find_insert_self] at hring
      exact (Option.some.inj hring).symm
    · refine unshared_of_rings fun m q hne hq r hr hkey => hne ?_
      have hold : (g.peers.insertNew (getId p) p).find? m = some q := by
        rw [OrdMap.find_insertNew, if_neg hne, hq]
      have hring : (r.ring.insert (r.createKey (getId p)) p).find? (r.createKey m) = some q :=
        hnew m q hold _ (List.mem_map_of_mem hr)
      rw [hkey, OrdMap.find_insert_self] at hring
      rw [← keyed_find hk hq, ← Option.some.inj hring]
  · intro hfits m q hq r hr
    obtain ⟨hsame, hshare⟩ := hfits
    obtain ⟨r, hold, rfl⟩ := List.mem_map.mp hr
    have hq : (g.peers.insertNew (getId p) p).find? m = some q := hq
    show (r.ring.insert (r.createKey (getId p)) p).find? (r.createKey m) = some q
    by_cases hm : m = getId p
    · subst hm
      rw [OrdMap.find_insertNew, if_pos rfl] at hq
      rw [OrdMap.find_insert_self, ← hq]
      cases hw : g.peers.find? (getId p) with
      | none => rfl
      | some w => rw [hsame w hw, Option.getD_some]
    · rw [OrdMap.find_insertNew, if_neg hm] at hq
      rw [OrdMap.find_insert_ne _ _ (unshared_key hshare (OrdMap.contains_iff.mpr ⟨q, hq⟩) hm hold)]
      exact h m q hq r hold

theorem remove_kept (h : g.OneConnection) (p : PeerRef) :
    (g.removePeer getId p).2.OneConnection ↔ g.Fits getId (.removePeer p) := by
  constructor
  · intro hnew
    refine unshared_of_rings fun m q hne hq r hr hkey => ?_
    have hold : (g.peers.erase (getId p)).find? m = some q := by rw [OrdMap.find_erase_ne _ hne, hq]
    have hring : (r.ring.erase (r.createKey (getId p))).find? (r.createKey m) = some q :=
      hnew m q hold _ (List.mem_map_of_mem hr)
    rw [hkey, OrdMap.find_erase_self] at hring
    cases hring
  · intro hshare m q hq r hr
    obtain ⟨r, hold, rfl⟩ := List.mem_map.mp hr
    obtain ⟨hne, hq⟩ := OrdMap.find_erase_some (m := g.peers) (k := getId p) hq
    show (r.ring.erase (r.createKey (getId p))).find? (r.createKey m) = some q
    rw [OrdMap.find_erase_ne _ (unshared_key hshare (OrdMap.contains_iff.mpr ⟨q, hq⟩) hne hold)]
    exact h m q hq r hold

theorem change_kept (hk : Keyed getId g.peers) (h : g.OneConnection) (op : PeerOp) :
    (g.change getId op).OneConnection ↔ g.Fits getId op := by
  cases op with
  | addPeer p => exact add_kept hk h p
  | removePeer p => exact remove_kept h p

/-! ## Channels -/

/-- Members with one connection each have keys of their own. -/
theorem OneConnection.keys_differ (h : g.OneConnection) {a b : Bytes} {p q : PeerRef}
    (ha : g.peers.find? a = some p) (hb : g.peers.find? b = some q) {r : Ring} (hr : r ∈ g.rings)
    (hkey : r.createKey a = r.createKey b) : p = q := by
  have hp := h a p ha r hr
  rw [hkey, h b q hb r hr] at hp
  exact (Option.some.inj hp).symm

theorem added_index (l : List PeerRef) (r : Ring) : (l.foldl (fun r p => r.addPeer getId p) r).index = r.index :=
  l.foldlRecOn (motive := fun r' : Ring => r'.index = r.index) _ rfl fun _ h _ _ => h

/-- The last of the peers added under a key is found there. -/
theorem added_found {r : Ring} {p : PeerRef} : ∀ {l : List PeerRef} {r' : Ring}, r'.index = r.index →
    (∀ q ∈ l, r.createKey (getId q) = r.createKey (getId p) → q = p) →
    (p ∈ l ∨ r'.ring.find? (r.createKey (getId p)) = some p) →
      (l.foldl (fun r p => r.addPeer getId p) r').ring.find? (r.createKey (getId p)) = some p := by
  intro l
  induction l with
  | nil =>
    intro r' _ _ h
    rcases h with h | h
    · cases h
    · exact h
  | cons q l ih =>
    intro r' hi hl h
    have hkey : r'.createKey = r.createKey := funext fun id => by rw [Ring.createKey, hi, Ring.createKey]
    refine @ih (r'.addPeer getId q) hi (fun q' hq' => hl q' (List.mem_cons_of_mem q hq')) ?_
    by_cases hq : r.createKey (getId q) = r.createKey (getId p)
    · obtain rfl := hl q List.mem_cons_self hq
      refine Or.inr ?_
      show (r'.ring.insert (r'.createKey (getId q)) q).find? (r.createKey (getId q)) = some q
      rw [hkey, OrdMap.find_insert_self]
    · rcases h with h | h
      · rcases List.mem_cons.mp h with rfl | h
        · exact absurd rfl hq
        · exact Or.inl h
      · refine Or.inr ?_
        show (r'.ring.insert (r'.createKey (getId q)) q).find? (r.createKey (getId p)) = some p
        rw [hkey, OrdMap.find_insert_ne _ _ (Ne.symm hq)]
        exact h

theorem OneConnection.sameInChannels (h : g.OneConnection) (hk : Keyed getId g.peers) : g.SameInChannels getId := by
  intro channel id hid r hr r' hr' hi
  obtain ⟨p, hp⟩ := OrdMap.contains_iff.mp hid
  obtain rfl := keyed_find hk hp
  obtain ⟨r₀, -, rfl⟩ := List.mem_map.mp hr'
  have hi₀ : r₀.index = r.index := by
    rw [← hi]
    exact (added_index _ r₀).symm
  have hkey : (g.peers.values.foldl (fun r p => r.addPeer getId p) r₀).createKey = r.createKey :=
    funext fun id => by rw [Ring.createKey, hi, Ring.createKey]
  rw [hkey, h (getId p) p hp r hr]
  refine added_found hi₀ ?_ (Or.inl (OrdMap.mem_values.mpr ⟨_, hp⟩))
  intro q hq hsame
  obtain ⟨k, hk'⟩ := OrdMap.mem_values.mp hq
  obtain rfl := keyed_find hk hk'
  exact h.keys_differ hk' hp hr hsame

/-! ## Histories -/

theorem grow_snoc (id : Bytes) (ops : List PeerOp) (op : PeerOp) :
    grow getId id (ops ++ [op]) = (grow getId id ops).change getId op := by
  rw [grow, List.foldl_append]
  rfl

theorem grow_keyed (id : Bytes) (ops : List PeerOp) : Keyed getId (grow getId id ops).peers := by
  have run : ∀ (ops : List PeerOp) {g : Group}, Keyed getId g.peers →
      Keyed getId (ops.foldl (change getId) g).peers := by
    intro ops
    induction ops with
    | nil => exact fun h => h
    | cons op ops ih => exact fun h => ih (change_keyed h op)
  refine run ops ?_
  intro e he
  cases he

theorem new_oneConnection (id : Bytes) : (new id).OneConnection := by
  intro m p hp
  cases hp

/-- Every state of a history whose calls all fit. -/
theorem grown_kept {id : Bytes} : ∀ (ops : List PeerOp),
    (∀ before op, before ++ [op] <+: ops → (grow getId id before).Fits getId op) →
      (grow getId id ops).OneConnection := by
  intro ops
  induction ops using List.reverseRecOn with
  | nil => exact fun _ => new_oneConnection id
  | append_singleton ops op ih =>
    intro hfits
    have hkept := ih fun before op' hpre => hfits before op' (hpre.trans (List.prefix_append ops [op]))
    rw [grow_snoc]
    exact (change_kept (grow_keyed id ops) hkept op).mpr (hfits ops op (List.prefix_refl _))

/-- Members and rings hold the same connections in every state a history reaches, and so
    do the channels built from the members, if and only if every call fits. -/
theorem one_connection_iff {getId : PeerRef → Bytes} {id : Bytes} {ops : List PeerOp} :
    (∀ before, before <+: ops →
      (grow getId id before).OneConnection ∧ (grow getId id before).SameInChannels getId) ↔
      ∀ before op, before ++ [op] <+: ops → (grow getId id before).Fits getId op := by
  constructor
  · intro h before op hpre
    have hb := (h before ((List.prefix_append before [op]).trans hpre)).1
    have ha := (h (before ++ [op]) hpre).1
    rw [grow_snoc] at ha
    exact (change_kept (grow_keyed id before) hb op).mp ha
  · intro h before hpre
    have hkept := grown_kept before fun b op hb => h b op (hb.trans hpre)
    exact ⟨hkept, hkept.sameInChannels (grow_keyed id before)⟩

omit [Platform] in
/-- A second connection for a member's ID: the members keep the first, the rings take the
    second, a channel takes the first. -/
theorem two_connections :
    let getId : PeerRef → Bytes := fun _ => [0]
    let g := @grow sha1 getId [] [.addPeer 0, .addPeer 1]
    ¬@OneConnection sha1 g ∧ ¬@SameInChannels sha1 getId g := by
  intro getId g
  have hring : ∃ r ∈ g.rings, r.index = 0 ∧ r.ring.find? (@Ring.createKey sha1 r [0]) = some 1 := by decide +kernel
  have hchannel : ∃ r ∈ (@addGroupToRings sha1 getId (new [7]) g).rings,
      r.index = 0 ∧ r.ring.find? (@Ring.createKey sha1 r [0]) = some 0 := by
    decide +kernel
  obtain ⟨r, hr, hi, hone⟩ := hring
  obtain ⟨r', hr', hi', hzero⟩ := hchannel
  refine ⟨?_, ?_⟩
  · intro h
    have hz := h [0] 0 (by decide +kernel) r hr
    rw [hone] at hz
    exact absurd (Option.some.inj hz) (by decide)
  · intro h
    have hz := h (new [7]) [0] (by decide +kernel) r hr r' hr' (hi'.trans hi.symm)
    rw [hone, hzero] at hz
    exact absurd (Option.some.inj hz) (by decide)

end Group

end RacKun
