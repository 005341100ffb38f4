/-
  RacKun.Network.ReadyOrder — READY in a node with several groups.

  The loop of READY goes through the groups by their IDs, so the local group comes at any
  point of it, and its round connects the local peer, which later rounds look at. But they
  look at it for the local group only, and that has one round: what a round does does not
  depend on the rounds before it (`readied_round`), nor does it when READY comes again
  (`again_round`).

  - `ready_loop`: a loop whose rounds each do what is told for their group.
  - `keyed_directs`: the peers notified for one group, each by an ID of his own.
-/

import RacKun.Group.Agreement
import RacKun.Network.OwnPlace

namespace RacKun

open Lib (OrdMap bind_ok pure_ok ok_bind)

open Scenario

/-! ## Direct neighbours -/

namespace Group

/-- The direct predecessors and successors, as a READY Notification goes to them. -/
def directs (x : Group) : PeerMap := x.predecessors.union x.successors

variable {ids : PeerRef → Bytes}

theorem keyed_union {m n : PeerMap} (hm : Keyed ids m) (hn : Keyed ids n) : Keyed ids (m.union n) := by
  intro e he
  obtain ⟨k, p⟩ := e
  have hf := OrdMap.find_union m n k
  rw [OrdMap.mem_entries.mp he] at hf
  cases hk : m.find? k with
  | some q =>
    rw [hk, Option.some_or] at hf
    cases hf
    exact hm (k, p) (OrdMap.mem_entries.mpr hk)
  | none =>
    rw [hk, Option.none_or] at hf
    exact hn (k, p) (OrdMap.mem_entries.mpr hf.symm)

theorem keyed_values {m : PeerMap} (h : Keyed ids m) : m.values.map ids = m.keys := by
  rw [OrdMap.values, OrdMap.keys, List.map_map]
  exact List.map_congr_left fun e he => (h e he).symm

theorem contains_union (m n : PeerMap) (k : Bytes) :
    (m.union n).contains k = true ↔ m.contains k = true ∨ n.contains k = true := by
  rw [OrdMap.contains, OrdMap.contains, OrdMap.contains, OrdMap.find_union]
  cases m.find? k <;> simp

/-- Among the direct neighbours each ID that is listed comes once. -/
theorem keyed_directs {x : Group} (hp : Keyed ids x.predecessors) (hs : Keyed ids x.successors) :
    (x.directs.values.map ids).Nodup ∧ ∀ id, id ∈ x.directs.values.map ids ↔ x.lists id := by
  have hkeys : x.directs.values.map ids = x.directs.keys := keyed_values (keyed_union hp hs)
  rw [hkeys]
  refine ⟨OrdMap.keys_nodup _, fun id => ?_⟩
  rw [OrdMap.mem_keys, ← OrdMap.contains_iff, directs, contains_union]
  rfl

variable [Platform]

theorem updateNeighbours_keyed (x : Group) (localPeer : PeerRef) :
    Keyed ids (x.updateNeighbours ids localPeer).predecessors ∧
      Keyed ids (x.updateNeighbours ids localPeer).successors := by
  cases h : x.neighbours ids localPeer with
  | ok r =>
    obtain ⟨preds, succs⟩ := r
    obtain ⟨hp, hs⟩ := neighbours_only h
    rw [updateNeighbours_ok h]
    exact ⟨fun e he => (hp e.1 e.2 (OrdMap.mem_entries.mp he)).1, fun e he => (hs e.1 e.2 (OrdMap.mem_entries.mp he)).1⟩
  | error e =>
    rw [updateNeighbours_error h]
    refine ⟨fun e he => ?_, fun e he => ?_⟩
    · cases he
    · cases he

theorem enter_id (x : Group) (localPeer p : PeerRef) : (x.enter ids localPeer p).id = x.id := updateNeighbours_id _ _

end Group

variable [Platform]

/-! ## Rounds -/

namespace Membership

/-- The group whose neighbours a round notifies, as it has become. -/
def tells (m : Membership) (l g : GroupRef) : Option Group :=
  if (m.group g).id ≠ (m.group l).id ∨ m.localState ≠ .connected then some ((m.enterRings l g).group g) else none

/-- READY has been through these groups: the local peer is in their rings, and connected
    once they include his own. -/
def readied (m : Membership) (l : GroupRef) (done : List GroupRef) : Membership :=
  { m with
    peer := if l ∈ done then (m.setState m.localPeer .connected).peer else m.peer
    group := fun g => if g ∈ done then (m.group g).enter m.getId m.localPeer m.localPeer else m.group g }

variable {m : Membership} {l g : GroupRef} {done : List GroupRef}

theorem readied_nil : m.readied l [] = m := by
  simp [readied]

theorem readied_peer : (m.readied l done).peer =
    if l ∈ done then (m.setState m.localPeer .connected).peer else m.peer := rfl

theorem readied_getId : (m.readied l done).getId = m.getId := by
  funext q
  rw [getId, readied_peer]
  split
  · exact congrFun (setState_getId m m.localPeer .connected) q
  · rfl

theorem readied_localState : (m.readied l done).localState = if l ∈ done then .connected else m.localState := by
  have hlp : (m.readied l done).localPeer = m.localPeer := rfl
  rw [localState, readied_peer, hlp]
  split
  · rw [setState, modPeer_self]
  · rfl

/-- The rest of the membership is as it was. -/
theorem readied_ext {n : Membership} (hrest : n = { m with peer := n.peer, group := n.group })
    (hp : n.peer = (m.readied l done).peer) (hg : n.group = (m.readied l done).group) : n = m.readied l done := by
  rw [hrest, hp, hg]
  rfl

theorem readied_group_done (h : g ∈ done) :
    (m.readied l done).group g = (m.group g).enter m.getId m.localPeer m.localPeer := if_pos h

theorem readied_group (h : g ∉ done) : (m.readied l done).group g = m.group g := if_neg h

theorem readied_id : ((m.readied l done).group g).id = (m.group g).id := by
  by_cases h : g ∈ done
  · rw [readied_group_done h, Group.enter_id]
  · rw [readied_group h]

/-- One more group. -/
theorem readied_group_next (hg : g ∉ done) : Function.update (m.readied l done).group g
    ((m.group g).enter m.getId m.localPeer m.localPeer) = (m.readied l (done ++ [g])).group := by
  funext g'
  by_cases h : g' = g
  · subst h
    rw [Function.update_self, readied_group_done (by simp)]
  · rw [Function.update_of_ne h]
    by_cases hd : g' ∈ done
    · rw [readied_group_done hd, readied_group_done (by simp [hd])]
    · rw [readied_group hd, readied_group (by simp [hd, h])]

/-- A round, wherever the local group comes. -/
theorem readied_round (hj : m.localState ≠ .connected) (hsame : (m.group g).id = (m.group l).id ↔ g = l)
    (hg : g ∉ done) :
    (m.readied l done).tells l g = some ((m.group g).enter m.getId m.localPeer m.localPeer) ∧
      (m.readied l done).enterRings l g = m.readied l (done ++ [g]) := by
  have henter : (m.readied l done).enterRings l g = m.readied l (done ++ [g]) := by
    unfold enterRings
    rw [readied_id, readied_id, readied_localState]
    by_cases h : g = l
    · subst h
      have hpeer : (m.readied g done).peer = m.peer := by rw [readied_peer, if_neg hg]
      rw [if_neg (by simp), if_neg hg, if_pos hj, enter_eq, setState_getId, readied_getId]
      refine readied_ext rfl ?_ ?_
      · show Function.update (m.readied g done).peer m.localPeer _ = _
        rw [hpeer, readied_peer, if_pos (by simp)]
        rfl
      · show Function.update (m.readied g done).group g (((m.readied g done).group g).enter m.getId m.localPeer m.localPeer) = _
        rw [readied_group hg, readied_group_next hg]
    · rw [if_pos (fun hid => h (hsame.mp hid)), enter_eq, readied_getId]
      refine readied_ext rfl ?_ ?_
      · show (m.readied l done).peer = _
        rw [readied_peer, readied_peer]
        simp [Ne.symm h]
      · show Function.update (m.readied l done).group g (((m.readied l done).group g).enter m.getId m.localPeer m.localPeer) = _
        rw [readied_group hg, readied_group_next hg]
  refine ⟨?_, henter⟩
  rw [tells, henter, readied_id, readied_id, readied_localState, if_pos, readied_group_done (by simp)]
  by_cases h : g = l
  · right
    rw [if_neg (h ▸ hg)]
    exact hj
  · exact Or.inl fun hid => h (hsame.mp hid)

/-- A round of a READY that comes again changes nothing. -/
theorem again_round (hc : m.localState = .connected) (hsame : (m.group g).id = (m.group l).id ↔ g = l)
    (hin : (m.group g).enter m.getId m.localPeer m.localPeer = m.group g) :
    m.tells l g = (if g = l then none else some (m.group g)) ∧ m.enterRings l g = m := by
  have henter : m.enterRings l g = m := by
    unfold enterRings
    by_cases h : g = l
    · rw [if_neg (fun hid => hid (hsame.mpr h)), if_neg (fun hn => hn hc)]
    · rw [if_pos (fun hid => h (hsame.mp hid)), enter_eq, modGroup, hin, Function.update_eq_self]
  refine ⟨?_, henter⟩
  rw [tells, henter]
  by_cases h : g = l
  · rw [if_pos h, if_neg]
    rintro (hid | hn)
    · exact hid (hsame.mpr h)
    · exact hn hc
  · rw [if_neg h, if_pos (Or.inl fun hid => h (hsame.mp hid))]

end Membership

/-! ## The loop -/

namespace Network

/-- A READY Notification to the direct neighbours in this group, if it is notified. -/
def notices (notif : Message) : Option Group → List Effect
  | some x => x.directs.values.map (.sent · notif.serialize)
  | none => []

theorem readyGroup_round {s : Network} {l : GroupRef} (hl : s.localGroup = some l) (g : GroupRef) :
    ∃ s' notif, s.readyGroup g = .ok s' ∧ notif.payload = .readyNotif ∧ s'.toMembership = s.enterRings l g ∧
      s'.trace = s.trace ++ notices notif (s.tells l g) := by
  let t : Network := { s with toMembership := s.enterRings l g }
  by_cases hn : (s.group g).id ≠ (s.group l).id ∨ s.localState ≠ .connected
  · have htells : s.tells l g = some (t.group g) := if_pos hn
    obtain ⟨s', hs'⟩ := logMessage_total (s := (t.makeStamp .readyNotif).2.record
      (notices (t.makeStamp .readyNotif).1 (some (t.group g)))) (m := (t.makeStamp .readyNotif).1) t.localPeer
      fun marker _ hb => by cases hb
    have hlog := logMessage_logs hs'
    refine ⟨s', (t.makeStamp .readyNotif).1, ?_, rfl, hlog.membership, ?_⟩
    · rw [readyGroup, derefLocalGroup_ok.mpr hl, ok_bind]
      simp only [hn, decide_true, if_true]
      exact hs'
    · rw [htells]
      exact hlog.trace
  · have htells : s.tells l g = none := if_neg hn
    refine ⟨t, ⟨[], .readyNotif⟩, ?_, rfl, rfl, ?_⟩
    · rw [readyGroup, derefLocalGroup_ok.mpr hl, ok_bind]
      simp only [hn, decide_false, Bool.false_eq_true, if_false]
      rfl
    · rw [htells]
      exact (List.append_nil s.trace).symm

/-- A loop whose rounds each do what is told for their group, in whatever order. -/
theorem ready_loop {l : GroupRef} {all : List GroupRef} {told : GroupRef → Option Group}
    {P : List GroupRef → Membership → Prop}
    (hround : ∀ done g n, g ∈ all → g ∉ done → P done n →
      n.localGroup = some l ∧ n.tells l g = told g ∧ P (done ++ [g]) (n.enterRings l g)) :
    ∀ (todo done : List GroupRef) (s : Network), todo ⊆ all → (done ++ todo).Nodup → P done s.toMembership →
      ∃ (s' : Network) (notif : GroupRef → Message), todo.foldlM readyGroup s = .ok s' ∧
        (∀ g, (notif g).payload = .readyNotif) ∧ P (done ++ todo) s'.toMembership ∧
          s'.trace = s.trace ++ todo.flatMap fun g => notices (notif g) (told g) := by
  intro todo
  induction todo with
  | nil =>
    intro done s _ _ h
    exact ⟨s, fun _ => ⟨[], .readyNotif⟩, rfl, fun _ => rfl, by rwa [List.append_nil], (List.append_nil _).symm⟩
  | cons g todo ih =>
    intro done s hall hn h
    have hg : g ∉ done := fun hin => List.disjoint_of_nodup_append hn hin List.mem_cons_self
    have hrest : g ∉ todo := (List.nodup_cons.mp (List.nodup_append.mp hn).2.1).1
    obtain ⟨hl, htold, hnext⟩ := hround done g s.toMembership (hall List.mem_cons_self) hg h
    obtain ⟨t, first, ht, hfirst, htm, htt⟩ := readyGroup_round hl g
    have happ : done ++ g :: todo = (done ++ [g]) ++ todo := by simp
    obtain ⟨s', notif, hs', hnotif, hP, htrace⟩ := ih (done ++ [g]) t (fun x hx => hall (List.mem_cons_of_mem g hx))
      (happ ▸ hn) (htm ▸ hnext)
    refine ⟨s', Function.update notif g first, ?_, fun g' => ?_, happ ▸ hP, ?_⟩
    · rw [List.foldlM_cons, ht, ok_bind]
      exact hs'
    · by_cases hg' : g' = g
      · subst hg'
        rw [Function.update_self]
        exact hfirst
      · rw [Function.update_of_ne hg']
        exact hnotif g'
    · rw [htrace, htt, htold, List.flatMap_cons, Function.update_self, List.append_assoc]
      congr 2
      refine List.flatMap_congr fun x hx => ?_
      have hne : x ≠ g := fun he => hrest (he ▸ hx)
      rw [Function.update_of_ne hne]

/-- A READY that is new gets to its loop: logging leaves membership and wire alone. -/
theorem handle_ready {s : Network} {received stamp : Bytes} (p : PeerRef) (reached : Option Bytes)
    (hm : parseMessage received = .ok ⟨stamp, .ready⟩) (hnew : s.findLog ⟨stamp, .ready⟩ = none) :
    ∃ t : Network, t.toMembership = s.toMembership ∧ t.trace = s.trace ∧
      ∀ s', t.processReady = .ok s' → s.handleIncomingMessage received p reached = .ok s' := by
  have logged : ∃ t : Network, s.logKnown ⟨stamp, .ready⟩ p = .ok t ∧
      t.toMembership = s.toMembership ∧ t.trace = s.trace := by
    unfold logKnown
    split
    · obtain ⟨t, ht⟩ := logMessage_total (s := s) (m := ⟨stamp, .ready⟩) p fun marker _ hb => by cases hb
      exact ⟨t, ht, (logMessage_logs ht).membership, (logMessage_logs ht).trace⟩
    · exact ⟨s, rfl, rfl, rfl⟩
  obtain ⟨t, ht, hmem, htrace⟩ := logged
  refine ⟨t, hmem, htrace, fun s' hs' => ?_⟩
  have hreceive : s.receive ⟨stamp, .ready⟩ p reached = .ok s' := by
    rw [receive, ht, ok_bind]
    exact hs'
  simp only [handleIncomingMessage, hm, hnew, hreceive]

/-! ## READY -/

/-- READY has connected the local peer: he is in every ring of every group, the neighbours
    are those of these rings, and each of them has been notified once for each group. -/
structure Readied (s s' : Network) : Prop where
  connected : s'.localState = .connected
  kept : s'.groups = s.groups ∧ s'.localGroup = s.localGroup ∧ s'.localPeer = s.localPeer ∧ s'.getId = s.getId
  place : ∀ g ∈ s'.groups.values, Membership.HasPlace s'.getId s'.localPeer (s'.group g)
  fresh : ∀ g ∈ s'.groups.values, (s'.group g).Fresh s'.getId s'.localPeer
  notified : ∃ notif : GroupRef → Message, (∀ g, (notif g).payload = .readyNotif) ∧ s'.trace = s.trace ++
    s'.groups.values.flatMap fun g => (s'.group g).directs.values.map (.sent · (notif g).serialize)
  once : ∀ g ∈ s'.groups.values, ((s'.group g).directs.values.map s'.getId).Nodup ∧
    ∀ id, id ∈ (s'.group g).directs.values.map s'.getId ↔ (s'.group g).lists id

/-- READY has come again: nothing is changed, and only other groups are notified. -/
structure ReadiedAgain (l : GroupRef) (s s' : Network) : Prop where
  unchanged : s'.toMembership = s.toMembership
  notified : ∃ notif : GroupRef → Message, (∀ g, (notif g).payload = .readyNotif) ∧ s'.trace = s.trace ++
    (s'.groups.values.filter fun g => decide (g ≠ l)).flatMap fun g =>
      (s'.group g).directs.values.map (.sent · (notif g).serialize)

omit [Platform] in
theorem flatMap_told {l : GroupRef} {x : GroupRef → Group} {notif : GroupRef → Message} : ∀ gs : List GroupRef,
    (gs.flatMap fun g => notices (notif g) (if g = l then none else some (x g))) =
      (gs.filter fun g => decide (g ≠ l)).flatMap fun g => (x g).directs.values.map (.sent · (notif g).serialize) := by
  intro gs
  induction gs with
  | nil => rfl
  | cons g gs ih =>
    rw [List.flatMap_cons, ih]
    by_cases h : g = l
    · simp [h, notices]
    · simp [h, notices]

omit [Platform] in
/-- Groups filed under their IDs are filed once each. -/
theorem filed_once {m : Membership} (hids : ∀ id g, m.groups.find? id = some g → (m.group g).id = id) :
    m.groups.values.Nodup ∧ ∀ {g l : GroupRef}, g ∈ m.groups.values → m.groups.find? (m.group l).id = some l →
      ((m.group g).id = (m.group l).id ↔ g = l) := by
  constructor
  · have hk : m.groups.values.map (fun g => (m.group g).id) = m.groups.keys := by
      rw [OrdMap.values, OrdMap.keys, List.map_map]
      exact List.map_congr_left fun e he => hids e.1 e.2 (OrdMap.mem_entries.mp he)
    exact List.Nodup.of_map _ (hk ▸ m.groups.keys_nodup)
  · intro g l hg hl
    obtain ⟨k, hk⟩ := OrdMap.mem_values.mp hg
    constructor
    · intro hid
      rw [← hids k g hk, hid, hl] at hk
      exact (Option.some.inj hk).symm
    · intro hgl
      rw [hgl]

/-- The first READY. -/
theorem ready_first {t : Network} {l : GroupRef} (hj : t.localState ≠ .connected) (hl : t.localGroup = some l)
    (hn : t.groups.values.Nodup) (hsame : ∀ g ∈ t.groups.values, (t.group g).id = (t.group l).id ↔ g = l) :
    ∃ (s' : Network) (notif : GroupRef → Message), t.processReady = .ok s' ∧
      (∀ g, (notif g).payload = .readyNotif) ∧
      s'.toMembership = t.readied l t.groups.values ∧ s'.trace = t.trace ++ t.groups.values.flatMap fun g =>
        ((t.group g).enter t.getId t.localPeer t.localPeer).directs.values.map (.sent · (notif g).serialize) := by
  let told : GroupRef → Option Group := fun g => some ((t.group g).enter t.getId t.localPeer t.localPeer)
  have hround : ∀ done g n, g ∈ t.groups.values → g ∉ done → n = t.readied l done →
      n.localGroup = some l ∧ n.tells l g = told g ∧ n.enterRings l g = t.readied l (done ++ [g]) := by
    intro done g n hg hnot hP
    obtain ⟨htells, hnext⟩ := Membership.readied_round hj (hsame g hg) hnot
    rw [hP]
    exact ⟨hl, htells, hnext⟩
  exact ready_loop (P := fun done n => n = t.readied l done) hround t.groups.values [] t (List.Subset.refl _) hn
    Membership.readied_nil.symm

/-- A further READY. -/
theorem ready_again {t : Network} {l : GroupRef} (hc : t.localState = .connected) (hl : t.localGroup = some l)
    (hn : t.groups.values.Nodup) (hsame : ∀ g ∈ t.groups.values, (t.group g).id = (t.group l).id ↔ g = l)
    (hin : ∀ g ∈ t.groups.values, (t.group g).enter t.getId t.localPeer t.localPeer = t.group g) :
    ∃ s', t.processReady = .ok s' ∧ t.ReadiedAgain l s' := by
  let told : GroupRef → Option Group := fun g => if g = l then none else some (t.group g)
  have hround : ∀ (done : List GroupRef) g n, g ∈ t.groups.values → g ∉ done → n = t.toMembership →
      n.localGroup = some l ∧ n.tells l g = told g ∧ n.enterRings l g = t.toMembership := by
    intro done g n hg _ hP
    obtain ⟨htells, hnext⟩ := Membership.again_round hc (hsame g hg) (hin g hg)
    rw [hP]
    exact ⟨hl, htells, hnext⟩
  obtain ⟨s', notif, hs', hnotif, hP, htrace⟩ := ready_loop (P := fun _ n => n = t.toMembership) hround
    t.groups.values [] t (List.Subset.refl _) hn rfl
  refine ⟨s', hs', hP, notif, hnotif, ?_⟩
  rw [htrace, flatMap_told, hP]

/-- Wherever the local group comes among the others, READY does the same for all of them,
    and does it once. -/
theorem ready_any_order {s : Network} {l : GroupRef} (hj : s.localState = .joining) (hl : s.localGroup = some l)
    (hfiled : s.groups.find? (s.group l).id = some l) (hids : ∀ id g, s.groups.find? id = some g → (s.group g).id = id)
    {received stamp : Bytes} (p : PeerRef) (reached : Option Bytes) (hm : parseMessage received = .ok ⟨stamp, .ready⟩)
    (hnew : s.findLog ⟨stamp, .ready⟩ = none) :
    ∃ s', s.handleIncomingMessage received p reached = .ok s' ∧ s.Readied s' ∧
      ∀ (received' stamp' : Bytes) (p' : PeerRef) (reached' : Option Bytes),
        parseMessage received' = .ok ⟨stamp', .ready⟩ → s'.findLog ⟨stamp', .ready⟩ = none →
          ∃ s'', s'.handleIncomingMessage received' p' reached' = .ok s'' ∧ s'.ReadiedAgain l s'' := by
  obtain ⟨hn, hsame⟩ := filed_once hids
  have hlmem : l ∈ s.groups.values := OrdMap.mem_values.mpr ⟨_, hfiled⟩
  have hstate : s.localState ≠ .connected := by
    rw [hj]
    intro hc
    cases hc
  obtain ⟨t, htm, htt, hok⟩ := handle_ready p reached hm hnew
  obtain ⟨s', notif, hs', hnotif, hP, htrace⟩ := ready_first (t := t) (l := l) (by rw [htm]; exact hstate)
    (by rw [htm]; exact hl) (by rw [htm]; exact hn) (by rw [htm]; exact fun g hg => hsame hg hfiled)
  rw [htm] at hP htrace
  rw [htt] at htrace
  have hgroup : ∀ g ∈ s.groups.values, s'.group g = (s.group g).enter s.getId s.localPeer s.localPeer := by
    intro g hg
    rw [hP]
    exact Membership.readied_group_done hg
  have hkept : s'.groups = s.groups ∧ s'.localGroup = s.localGroup ∧ s'.localPeer = s.localPeer ∧
      s'.getId = s.getId := by
    rw [hP]
    exact ⟨rfl, rfl, rfl, Membership.readied_getId⟩
  obtain ⟨hgroups, hlocal, hpeer, hid⟩ := hkept
  have hconnected : s'.localState = .connected := by
    rw [hP, Membership.readied_localState, if_pos hlmem]
  refine ⟨s', hok s' hs', ⟨hconnected, ⟨hgroups, hlocal, hpeer, hid⟩, ?_, ?_, ⟨notif, hnotif, ?_⟩, ?_⟩, ?_⟩
  · intro g hg
    rw [hgroups] at hg
    rw [hid, hpeer, hgroup g hg]
    exact Membership.enter_hasPlace _ _ _
  · intro g hg
    rw [hgroups] at hg
    rw [hid, hpeer, hgroup g hg]
    exact Group.updateNeighbours_fresh _ _
  · rw [htrace, hgroups]
    congr 1
    refine List.flatMap_congr fun g hg => ?_
    rw [hgroup g hg]
  · intro g hg
    rw [hgroups] at hg
    rw [hid, hgroup g hg]
    obtain ⟨hp, hs⟩ := @Group.updateNeighbours_keyed s.getId _ ((s.group g).addToRings s.getId s.localPeer)
      s.localPeer
    exact Group.keyed_directs hp hs
  · intro received' stamp' p' reached' hm' hnew'
    obtain ⟨u, hum, hut, hok'⟩ := handle_ready p' reached' hm' hnew'
    have hids' : ∀ g, (s'.group g).id = (s.group g).id := fun g => by
      rw [hP]
      exact Membership.readied_id
    obtain ⟨s'', hs'', hagain⟩ := ready_again (t := u) (l := l) (by rw [hum]; exact hconnected)
      (by rw [hum, hlocal]; exact hl) (by rw [hum, hgroups]; exact hn)
      (by rw [hum, hgroups, hids' l]; exact fun g hg => by rw [hids' g]; exact hsame hg hfiled)
      (by
        rw [hum, hgroups, hid, hpeer]
        intro g hg
        rw [hgroup g hg]
        exact Group.enter_twice _ _ _)
    obtain ⟨notif', hnotif', htrace'⟩ := hagain.notified
    refine ⟨s'', hok' s'' hs'', hagain.unchanged.trans hum, notif', hnotif', ?_⟩
    rw [htrace', hut]

omit [Platform] in
/-- A newcomer whose group comes after the other one; READY comes to him twice. -/
theorem ready_any_order_two : ∃ s s' s'', @Reachable sha1 s ∧ s.localState = .joining ∧ s.localGroup = some 0 ∧
    s.groups.values = [1, 0] ∧ @handleIncomingMessage sha1 s (msg 3 .ready) 1 none = .ok s' ∧ @Readied sha1 s s' ∧
    @handleIncomingMessage sha1 s' (msg 4 .ready) 1 none = .ok s'' ∧ ReadiedAgain 0 s' s'' := by
  have hrun : @leadsTo sha1 (fun _ _ => True) _ node
      [.join [] [] (some [9]), .accept [8], .read 1 (ack 65) none,
        .read 2 (msg 2 (.joinAck (idOf 199) (idOf 66) (List.replicate 5 66))) none]
      (fun s => decide (s.localState = .joining ∧ s.localGroup = some 0 ∧ s.groups.values = [1, 0] ∧
        s.groups.find? (s.group 0).id = some 0 ∧ s.findLog ⟨List.replicate 20 3, .ready⟩ = none ∧
        (@handleIncomingMessage sha1 s (msg 3 .ready) 1 none).toOption.any (fun s' =>
          decide (s'.findLog ⟨List.replicate 20 4, .ready⟩ = none)) = true)) = true := by
    decide +kernel
  obtain ⟨s, hs, ht⟩ := @reach_of_leadsTo sha1 _ _ _ _ _ _ _ _ hrun
  obtain ⟨hj, hl, hv, hfiled, hnew, hany⟩ := of_decide_eq_true ht
  have hids : ∀ id g, s.groups.find? id = some g → (s.group g).id = id := fun id g hg =>
    (Membership.Sound.groups (@Reach.sound sha1 _ _ hs) id g hg).2
  obtain ⟨s', hs', hr, hagain⟩ := @ready_any_order sha1 s 0 hj hl hfiled hids (msg 3 .ready)
    (List.replicate 20 3) 1 none (by decide +kernel) hnew
  rw [hs'] at hany
  obtain ⟨s'', hs'', hra⟩ := hagain (msg 4 .ready) (List.replicate 20 4) 1 none (by decide +kernel)
    (of_decide_eq_true hany)
  exact ⟨s, s', s'', hs, hj, hl, hv, hs', hr, hs'', hra⟩

end Network

end RacKun
