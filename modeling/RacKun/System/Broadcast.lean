/-
  RacKun.System.Broadcast — one DATA message in a group at rest: who gets it, and how
  often.

  The nodes refine a flood along the edges of the rings: a node that has logged the
  message has sent one copy to each of its successors, and its log counts the copies
  delivered to it.

  - `Sim`: the nodes and the copies on their way, as a state of the flood.
  - `Sim.step`: a move of the copies is a move of the flood.
-/

import RacKun.Lib.Flood
import RacKun.System.StaticGroup
import RacKun.Wire.Codec

namespace RacKun

open Lib (OrdMap)

variable [Platform] {ι : Type} [DecidableEq ι]

/-- What a node that has the message did and counted since `s₀`. -/
structure Network.Relayed (s₀ s : Network) (g : GroupRef) (m : Message) (shown : List Effect)
    (control : Bytes → Option Nat) : Prop where
  membership : s.toMembership = s₀.toMembership
  markers : s.channelMarkers = s₀.channelMarkers
  trace : s.trace = s₀.trace ++ (s₀.copies g m ++ shown)
  log : ∃ l, s.findLog m = some l ∧ ∀ k, l.control.find? k = control k

namespace System

variable (sys : System ι) (id : ι → Bytes) (grp : ι → GroupRef)

/-- The counters of a node, when these copies have been delivered. -/
def counted (got : Multiset (ι × ι)) (i : ι) (k : Bytes) : Option Nat :=
  if (sys.preds grp i).contains k then some (got.countP fun e => id e.1 = k ∧ e.2 = i) else none

/-- The message is shown to the user everywhere but at its origin. -/
def Shows (origin : ι) (content : Bytes) (i : ι) (shown : List Effect) : Prop :=
  if i = origin then shown = [] else ∃ who, shown = [.displayed who content]

/-- The state of the flood that the nodes are in after these moves. -/
structure Sim (origin : ι) (m : Message) (content : Bytes) (moves : List (Move ι)) (sys' : System ι)
    (st : Lib.Flood.State ι) : Prop where
  inv : Lib.Flood.Inv (sys.successors grp) origin st
  wire : st.wire = (sys'.wire.map Packet.edge : List (ι × ι))
  got : st.got = (moves.filterMap Move.delivered? : List (ι × ι))
  lost : st.lost = (moves.filterMap Move.lost? : List (ι × ι))
  link : sys'.link = sys.link
  packets : ∀ c ∈ sys'.wire, ∃ p ∈ (sys.succs grp c.source).values,
    c = ⟨c.source, sys.target c.source p, sys.back c.source p, m.serialize⟩
  unseen : ∀ i ∉ st.seen, sys'.node i = sys.node i
  seen : ∀ i ∈ st.seen, ∃ shown, Shows origin content i shown ∧
    (sys.node i).Relayed (sys'.node i) (grp i) m shown (sys.counted id grp st.got i)

variable {sys id grp} {gid : Bytes}

omit [Platform] in
theorem edges_erase {wire l₁ l₂ : List (Packet ι)} {c : Packet ι} (hw : wire = l₁ ++ c :: l₂) :
    (wire.map Packet.edge : Multiset (ι × ι)).erase c.edge = ((l₁ ++ l₂).map Packet.edge : List (ι × ι)) := by
  have hp : (wire.map Packet.edge).Perm (c.edge :: (l₁ ++ l₂).map Packet.edge) := by
    rw [hw, ← List.map_cons]
    exact List.perm_middle.map Packet.edge
  rw [Multiset.coe_eq_coe.mpr hp, ← Multiset.cons_coe, Multiset.erase_cons_head]

omit [Platform] [DecidableEq ι] in
theorem edges_append (l l' : List (Packet ι)) : ((l ++ l').map Packet.edge : Multiset (ι × ι)) =
    (l.map Packet.edge : Multiset (ι × ι)) + (l'.map Packet.edge : List (ι × ι)) := by
  rw [List.map_append, Multiset.coe_add]

omit [Platform] [DecidableEq ι] in
theorem mem_wire {wire l₁ l₂ : List (Packet ι)} {c c' : Packet ι} (hw : wire = l₁ ++ c :: l₂) (h : c' ∈ l₁ ++ l₂) :
    c' ∈ wire := by
  rw [hw]
  exact List.mem_append.mpr ((List.mem_append.mp h).imp_right (List.mem_cons_of_mem c))

omit [Platform] [DecidableEq ι] in
theorem edges_snoc {f : Move ι → Option (ι × ι)} (moves : List (Move ι)) (a : Move ι) :
    ((moves ++ [a]).filterMap f : Multiset (ι × ι)) = (moves.filterMap f : Multiset (ι × ι)) + (f a).toList := by
  rw [List.filterMap_append, ← Multiset.coe_add]
  cases h : f a <;> simp [h]

omit [Platform] in
theorem counted_other {got : Multiset (ι × ι)} {e : ι × ι} {i : ι} (hi : i ≠ e.2) :
    sys.counted id grp (e ::ₘ got) i = sys.counted id grp got i := by
  funext k
  unfold counted
  rw [Multiset.countP_cons_of_neg _ fun hc => hi hc.2.symm]

omit [Platform] in
theorem counted_none {got : Multiset (ι × ι)} {i : ι} (hi : ∀ u, (u, i) ∉ got) (k : Bytes) :
    sys.counted id grp got i k = if (sys.preds grp i).contains k then some 0 else none := by
  have : got.countP (fun e => id e.1 = k ∧ e.2 = i) = 0 := by
    refine Multiset.countP_eq_zero.mpr ?_
    rintro ⟨u, v⟩ he ⟨-, rfl⟩
    exact hi u he
  rw [counted, this]

/-- One more copy is one more count. -/
theorem counted_ack (h : sys.StaticGroup id gid grp) [Nontrivial ι] {got : Multiset (ι × ι)} {u v : ι}
    (huv : v ∈ sys.successors grp u) {l : MessageLog} (hl : ∀ k, l.control.find? k = sys.counted id grp got v k)
    (k : Bytes) : (l.ack (id u)).control.find? k = sys.counted id grp ((u, v) ::ₘ got) v k := by
  have hp : (sys.preds grp v).contains (id u) = true := h.mem_preds.mpr huv
  show (l.control.insert (id u) ((l.control.find? (id u)).getD 0 + 1)).find? k = _
  rw [OrdMap.find_insert]
  split
  · rename_i hk
    subst hk
    rw [hl, counted, counted, if_pos hp, if_pos hp, Multiset.countP_cons_of_pos _ ⟨rfl, rfl⟩]
    rfl
  · rename_i hk
    rw [hl, counted, counted, Multiset.countP_cons_of_neg _ fun hc => hk hc.1.symm]

section

variable [Nontrivial ι] (h : sys.StaticGroup id gid grp) {origin : ι} {m : Message} {content : Bytes}
  {moves : List (Move ι)} {sys' : System ι} {st : Lib.Flood.State ι}

include h

/-- What is known about a copy in flight. -/
theorem Sim.packet (hs : sys.Sim id grp origin m content moves sys' st) {c : Packet ι} (hc : c ∈ sys'.wire) :
    c.target ∈ sys.successors grp c.source ∧ c.bytes = m.serialize ∧
      (sys.node c.target).getId c.emitter = id c.source ∧ ((sys.node c.target).peer c.emitter).listening = true ∧
      ((sys.node c.target).peer c.emitter).isKnown = true ∧ ((sys.node c.target).peer c.emitter).isLocal = false := by
  obtain ⟨p, hp, he⟩ := hs.packets c hc
  obtain ⟨-, -, hid, hrest⟩ := h.succ_linked c.source hp
  have ht : c.target = sys.target c.source p := congrArg Packet.target he
  have hb : c.emitter = sys.back c.source p := congrArg Packet.emitter he
  rw [ht, hb]
  exact ⟨List.mem_map_of_mem hp, congrArg Packet.bytes he, hid, hrest⟩

variable (hm : m.payload = .data (makeHash (gid ++ gid)) content) (hw : m.WellFormed)
  (hn : ∀ i, (sys.node i).findLog m = none)

include hm hw hn

/-- A copy can be delivered whenever it is in flight: the first time the node relays it
    and shows it, and from then on it is only counted. -/
theorem Sim.receives (hs : sys.Sim id grp origin m content moves sys' st) {c : Packet ι} (hc : c ∈ sys'.wire)
    (reached : Option Bytes) : ∃ s' es shown,
    (sys'.node c.target).handleIncomingMessage c.bytes c.emitter reached = .ok s' ∧
      s'.trace = (sys'.node c.target).trace ++ es ∧ Shows origin content c.target shown ∧
      es = (if c.target ∈ st.seen then [] else (sys.node c.target).copies (grp c.target) m ++ shown) ∧
      (sys.node c.target).Relayed s' (grp c.target) m shown
        (sys.counted id grp (c.edge ::ₘ st.got) c.target) := by
  obtain ⟨huv, hb, hid, -, hk, hl⟩ := hs.packet h hc
  have hp : parseMessage c.bytes = .ok m := by rw [hb, parse_serialize hw]
  by_cases hv : c.target ∈ st.seen
  · obtain ⟨shown, hshown, hr⟩ := hs.seen c.target hv
    obtain ⟨l, hlog, hcount⟩ := hr.log
    have hid' : (sys'.node c.target).getId c.emitter = id c.source := by rw [hr.membership, hid]
    refine ⟨_, [], shown, Network.handle_logged c.emitter reached hp hlog, (List.append_nil _).symm, hshown,
      by rw [if_pos hv], hr.membership, hr.markers, hr.trace, l.ack (id c.source), ?_, ?_⟩
    · rw [Network.findLog_ack (s := sys'.node c.target) rfl, hlog, hid']
      rfl
    · exact counted_ack h huv hcount
  · have hu := hs.unseen c.target hv
    have hne : c.target ≠ origin := fun hc => hv ((hs.inv.seen c.target).mpr (Or.inl hc))
    have hgot : ∀ u, (u, c.target) ∉ st.got := fun u hu => hv ((hs.inv.seen c.target).mpr (Or.inr ⟨u, hu⟩))
    have hr := Network.handle_data hp hm (hn c.target) (h.leads c.target) hk hl (h.isLocal c.target) reached
    rw [hu]
    refine ⟨_, _, [.displayed (id c.source) content], hr, rfl, ?_, ?_, rfl, rfl, ?_, _,
      Network.findLog_new (hn c.target) rfl, ?_⟩
    · rw [Shows, if_neg hne]
      exact ⟨_, rfl⟩
    · rw [if_neg hv, hid]
    · rw [hid]
    · rw [hid]
      refine counted_ack h huv fun k => ?_
      rw [counted_none hgot]
      exact Network.expected_find _ _ (h.neighbours c.target).1 k

omit hm hw hn in
/-- The copies a node posts when it relays the message. -/
theorem posted_edges (i : ι) {shown : List Effect} (hshown : Shows origin content i shown) :
    ((sys.posted i ((sys.node i).copies (grp i) m ++ shown)).map Packet.edge : Multiset (ι × ι)) =
      Lib.Flood.copies (sys.successors grp) i ∧
    ∀ c ∈ sys.posted i ((sys.node i).copies (grp i) m ++ shown), ∃ p ∈ (sys.succs grp c.source).values,
      c = ⟨c.source, sys.target c.source p, sys.back c.source p, m.serialize⟩ := by
  have hes : ∀ p b, Effect.sent p b ∉ shown := by
    intro p b hpb
    unfold Shows at hshown
    split at hshown
    · rw [hshown] at hpb
      cases hpb
    · obtain ⟨who, rfl⟩ := hshown
      cases List.mem_singleton.mp hpb
  rw [h.posted_copies i m hes]
  constructor
  · rw [List.map_map, Lib.Flood.copies, successors, Multiset.map_coe, List.map_map]
    rfl
  · intro c hc
    obtain ⟨p, hp, rfl⟩ := List.mem_map.mp hc
    exact ⟨p, hp, rfl⟩

theorem Sim.deliverable (hs : sys.Sim id grp origin m content moves sys' st) {c : Packet ι} (hc : c ∈ sys'.wire) :
    ∃ sys'', Step sys' (.deliver c) sys'' := by
  obtain ⟨s', es, shown, ht, -, -, -, -⟩ := hs.receives h hm hw hn hc none
  obtain ⟨-, -, -, hl, -, -⟩ := hs.packet h hc
  obtain ⟨l₁, l₂, hwire⟩ := List.append_of_mem hc
  have hmem : (sys'.node c.target).toMembership = (sys.node c.target).toMembership := by
    by_cases hv : c.target ∈ st.seen
    · obtain ⟨_, -, hr⟩ := hs.seen c.target hv
      exact hr.membership
    · rw [hs.unseen c.target hv]
  have hstep : Network.Step (sys'.node c.target) (.read c.emitter c.bytes none) s' := by
    refine ⟨?_, 0, ht⟩
    show ((sys'.node c.target).peer c.emitter).listening = true
    rw [hmem]
    exact hl
  exact ⟨_, .deliver hwire hstep⟩

theorem Sim.step (hs : sys.Sim id grp origin m content moves sys' st) {a : Move ι} {sys'' : System ι}
    (ha : Step sys' a sys'') : ∃ st', sys.Sim id grp origin m content (moves ++ [a]) sys'' st' := by
  cases ha with
  | @lose c l₁ l₂ hwire =>
    have hc : c ∈ sys'.wire := by rw [hwire]; exact List.mem_append_right l₁ List.mem_cons_self
    have he : c.edge ∈ st.wire := hs.wire ▸ List.mem_map_of_mem hc
    refine ⟨st.lose c.edge, hs.inv.lose he, ?_, ?_, ?_, hs.link, fun c' hc' => hs.packets c' (mem_wire hwire hc'),
      hs.unseen, hs.seen⟩
    · show st.wire.erase c.edge = _
      rw [hs.wire, edges_erase hwire]
    · rw [edges_snoc, ← hs.got]
      exact (add_zero st.got).symm
    · rw [edges_snoc, ← hs.lost, add_comm]
      rfl
  | @deliver c l₁ l₂ reached s' hwire hstep =>
    have hc : c ∈ sys'.wire := by rw [hwire]; exact List.mem_append_right l₁ List.mem_cons_self
    have he : c.edge ∈ st.wire := hs.wire ▸ List.mem_map_of_mem hc
    obtain ⟨-, rounds, hstep⟩ := hstep
    obtain ⟨t, es, shown, ht, htr, hshown, hes, hr⟩ := hs.receives h hm hw hn hc reached
    cases hstep.symm.trans ht
    have hposted : ({ sys' with wire := l₁ ++ l₂ } : System ι).posted c.target ((sys'.node c.target).effects s') =
        sys.posted c.target es := by
      rw [Network.effects_append htr]
      show sys'.posted c.target es = _
      rw [posted, hs.link, posted]
    refine ⟨st.deliver (sys.successors grp) c.edge, hs.inv.deliver he, ?_, ?_, ?_, hs.link, ?_, ?_, ?_⟩
    · show st.wire.erase c.edge + _ = (((l₁ ++ l₂) ++ _).map Packet.edge : List (ι × ι))
      rw [hposted, hs.wire, edges_erase hwire, edges_append (l₁ ++ l₂), hes]
      congr 1
      show (if c.target ∈ st.seen then 0 else _) = _
      split
      · rfl
      · exact (posted_edges h c.target hshown).1.symm
    · rw [edges_snoc, ← hs.got, add_comm]
      rfl
    · rw [edges_snoc, ← hs.lost]
      exact (add_zero st.lost).symm
    · intro c' hc'
      rcases List.mem_append.mp hc' with hc' | hc'
      · exact hs.packets c' (mem_wire hwire hc')
      · rw [hposted, hes] at hc'
        split at hc'
        · cases hc'
        · exact (posted_edges h c.target hshown).2 c' hc'
    · intro i hi
      have hi' : i ≠ c.target ∧ i ∉ st.seen := by simpa [Lib.Flood.State.deliver, Packet.edge] using hi
      exact (Function.update_of_ne hi'.1 ..).trans (hs.unseen i hi'.2)
    · intro i hi
      by_cases hic : i = c.target
      · subst hic
        refine ⟨shown, hshown, ?_⟩
        show (sys.node c.target).Relayed (Function.update sys'.node c.target s' c.target) _ m shown _
        rw [Function.update_self]
        exact hr
      · have hi' : i ∈ st.seen := by simpa [Lib.Flood.State.deliver, Packet.edge, hic] using hi
        obtain ⟨shown', hshown', hr'⟩ := hs.seen i hi'
        refine ⟨shown', hshown', ?_⟩
        show (sys.node i).Relayed (Function.update sys'.node c.target s' i) _ m shown'
          (sys.counted id grp (c.edge ::ₘ st.got) i)
        rw [Function.update_of_ne hic, counted_other hic]
        exact hr'

theorem Sim.run {sys₁ : System ι} {st₁ : Lib.Flood.State ι} (hs : sys.Sim id grp origin m content [] sys₁ st₁)
    (hr : sys₁.Run moves sys') : ∃ st, sys.Sim id grp origin m content moves sys' st := by
  induction hr with
  | refl => exact ⟨st₁, hs⟩
  | step hr ha ih =>
    obtain ⟨st, hst⟩ := ih
    exact hst.step h hm hw hn ha

end

/-! ## The origin -/

section

variable (h : sys.StaticGroup id gid grp) (origin : ι) (content : Bytes)

include h

omit [DecidableEq ι] in
theorem data_payload : ((sys.node origin).dataMessage (grp origin) content).payload =
    .data (makeHash (gid ++ gid)) content := by
  rw [← h.marker_eq origin]
  rfl

omit [DecidableEq ι] in
theorem data_wellFormed : ((sys.node origin).dataMessage (grp origin) content).WellFormed := by
  refine ⟨Platform.makeHash_length _, ?_⟩
  rw [data_payload h origin content]
  exact Platform.makeHash_length _

variable (hn : ∀ i, (sys.node i).findLog ((sys.node origin).dataMessage (grp origin) content) = none)

include hn

omit [DecidableEq ι] in
/-- What `broadcast_data` does at the origin. -/
theorem originates (rounds : Nat) : ∃ s', Network.handle rounds (sys.node origin) (.broadcast content) = .ok s' ∧
    s'.trace = (sys.node origin).trace ++
      ((sys.node origin).copies (grp origin) ((sys.node origin).dataMessage (grp origin) content) ++ []) ∧
    s'.toMembership = (sys.node origin).toMembership ∧ s'.channelMarkers = (sys.node origin).channelMarkers ∧
    s'.findLog ((sys.node origin).dataMessage (grp origin) content) =
      some ⟨((sys.node origin).dataMessage (grp origin) content).serialize, (sys.node origin).expected (grp origin)⟩ := by
  have hleads : (sys.node origin).Leads ((sys.node origin).makeChannelMarker (grp origin) (grp origin)) (grp origin) := by
    rw [h.marker_eq origin]
    exact h.leads origin
  refine ⟨_, Network.broadcastData_eq (h.localGroup origin) hleads (hn origin) (h.isLocal origin), ?_, rfl, rfl,
    Network.findLog_insert (hn origin) rfl⟩
  rw [List.append_nil]

theorem Sim.start [Nontrivial ι] (hwire : sys.wire = []) {s' : Network}
    (hs : Network.Step (sys.node origin) (.broadcast content) s') :
    sys.Sim id grp origin ((sys.node origin).dataMessage (grp origin) content) content [] (sys.after origin s')
      (Lib.Flood.start (sys.successors grp) origin) := by
  obtain ⟨-, rounds, hs⟩ := hs
  obtain ⟨t, ht, htr, hmem, hmark, hlog⟩ := originates h origin content hn rounds
  cases hs.symm.trans ht
  have hshown : Shows origin content origin [] := by rw [Shows, if_pos rfl]
  have hw : (sys.after origin s').wire = sys.posted origin ((sys.node origin).copies (grp origin)
      ((sys.node origin).dataMessage (grp origin) content) ++ []) := by
    rw [after, hwire, Network.effects_append htr]
    rfl
  obtain ⟨hedges, hpackets⟩ := posted_edges (m := (sys.node origin).dataMessage (grp origin) content) h origin hshown
  refine ⟨Lib.Flood.start_inv origin, ?_, rfl, rfl, rfl, ?_, fun i hi => ?_, fun i hi => ?_⟩
  · rw [hw, hedges]
    rfl
  · rw [hw]
    exact hpackets
  · exact Function.update_of_ne (fun hc => hi (Finset.mem_singleton.mpr hc)) ..
  · obtain rfl := Finset.mem_singleton.mp hi
    refine ⟨[], hshown, ?_⟩
    show (sys.node i).Relayed (Function.update sys.node i s' i) _ _ [] _
    rw [Function.update_self]
    refine ⟨hmem, hmark, htr, _, hlog, fun k => ?_⟩
    rw [Network.expected_find _ _ (h.neighbours i).1]
    exact (counted_none (fun u hu => absurd hu (Multiset.notMem_zero _)) k).symm

end

/-! ## What a node has done -/

/-- The copies a node has sent since `sys`. -/
def sent (sys sys' : System ι) (i : ι) : List (PeerRef × Bytes) :=
  ((sys.node i).effects (sys'.node i)).filterMap Effect.sent?

/-- What a node has shown to its user since `sys`. -/
def displayed (sys sys' : System ι) (i : ι) : List Bytes :=
  ((sys.node i).effects (sys'.node i)).filterMap Effect.displayed?

/-- The copies of one node delivered to another. -/
def deliveries (moves : List (Move ι)) (u v : ι) : Nat := (moves.filterMap Move.delivered? : Multiset (ι × ι)).count (u, v)

def losses (moves : List (Move ι)) (u v : ι) : Nat := (moves.filterMap Move.lost? : Multiset (ι × ι)).count (u, v)

def inFlight (sys : System ι) (u v : ι) : Nat := (sys.wire.map Packet.edge : Multiset (ι × ι)).count (u, v)

section

variable {origin : ι} {m : Message} {content : Bytes} {moves : List (Move ι)} {sys' : System ι}
  {st : Lib.Flood.State ι}

omit [Platform] in
theorem Sim.effects (hs : sys.Sim id grp origin m content moves sys' st) {i : ι} (hi : i ∈ st.seen) :
    sys.sent sys' i = (sys.succs grp i).values.map (·, m.serialize) ∧
      sys.displayed sys' i = if i = origin then [] else [content] := by
  obtain ⟨shown, hshown, hr⟩ := hs.seen i hi
  have hsent : ((sys.node i).copies (grp i) m).filterMap Effect.sent? =
      (sys.succs grp i).values.map (·, m.serialize) := by
    rw [Network.copies, List.filterMap_map]
    exact congrFun (List.filterMap_eq_map (f := fun p => (p, m.serialize))) _
  have hnone : ((sys.node i).copies (grp i) m).filterMap Effect.displayed? = [] := by
    rw [Network.copies, List.filterMap_map]
    exact List.filterMap_eq_nil_iff.mpr fun p _ => rfl
  rw [sent, displayed, Network.effects_append hr.trace, List.filterMap_append, List.filterMap_append, hsent, hnone]
  unfold Shows at hshown
  split at hshown
  · rename_i ho
    rw [hshown, if_pos ho]
    exact ⟨List.append_nil _, rfl⟩
  · rename_i ho
    obtain ⟨who, rfl⟩ := hshown
    rw [if_neg ho]
    exact ⟨List.append_nil _, rfl⟩

omit [Platform] in
theorem Sim.idle (hs : sys.Sim id grp origin m content moves sys' st) {i : ι} (hi : i ∉ st.seen) :
    sys.sent sys' i = [] ∧ sys.displayed sys' i = [] := by
  have : (sys.node i).effects (sys'.node i) = [] := by
    rw [hs.unseen i hi]
    exact Network.effects_append (List.append_nil _).symm
  rw [sent, displayed, this]
  exact ⟨rfl, rfl⟩

omit [Platform] in
/-- All moves and all copies in flight are copies of the flood. -/
theorem Sim.count (hs : sys.Sim id grp origin m content moves sys' st) (u v : ι) :
    st.sent.count (u, v) = sys'.inFlight u v + deliveries moves u v + losses moves u v := by
  rw [Lib.Flood.State.sent, Multiset.count_add, Multiset.count_add, hs.wire, hs.got, hs.lost]
  rfl

omit [Platform] in
/-- Copies that are only delivered are never lost. -/
theorem Sim.lossless (hs : sys.Sim id grp origin m content moves sys' st) (hd : ∀ a ∈ moves, ∃ c, a = .deliver c) :
    st.lost = 0 ∧ moves.length = st.got.card := by
  have run : ∀ l : List (Move ι), (∀ a ∈ l, ∃ c, a = .deliver c) →
      l.filterMap Move.lost? = [] ∧ (l.filterMap Move.delivered?).length = l.length := by
    intro l
    induction l with
    | nil => intro _; exact ⟨rfl, rfl⟩
    | cons a l ih =>
      intro hl
      obtain ⟨c, rfl⟩ := hl a List.mem_cons_self
      obtain ⟨h₁, h₂⟩ := ih fun a ha => hl a (List.mem_cons_of_mem _ ha)
      exact ⟨h₁, congrArg (· + 1) h₂⟩
  rw [hs.lost, hs.got, (run moves hd).1, Multiset.coe_card, (run moves hd).2]
  exact ⟨rfl, rfl⟩

omit [Platform] in
theorem Sim.bound [Fintype ι] (hs : sys.Sim id grp origin m content moves sys' st)
    (hd : ∀ a ∈ moves, ∃ c, a = .deliver c) : moves.length + sys'.wire.length ≤ ∑ i, (sys.succs grp i).size := by
  obtain ⟨hl, hg⟩ := hs.lossless hd
  have hw : sys'.wire.length = st.wire.card := by rw [hs.wire, Multiset.coe_card, List.length_map]
  have hb := hs.inv.bound
  rw [Lib.Flood.State.sent, hl, add_zero, Multiset.card_add] at hb
  simp only [StaticGroup.successors_length] at hb
  omega

/-- When nothing was lost and nothing is in flight, everybody has the message. -/
theorem Sim.settled [Nontrivial ι] (h : sys.StaticGroup id gid grp)
    (hs : sys.Sim id grp origin m content moves sys' st) (hd : ∀ a ∈ moves, ∃ c, a = .deliver c)
    (hw : sys'.wire = []) : ∀ i, i ∈ st.seen := by
  have hw : st.wire = 0 := by rw [hs.wire, hw]; rfl
  exact h.closed ((hs.inv.seen origin).mpr (Or.inl rfl)) fun i hi j hj =>
    hs.inv.covered (hs.lossless hd).1 hw hi hj

end

/-- In every order of deliveries the message floods the group: no copy gets stuck, every
    node sends its copies at most once, and when none is in flight every member but the
    origin has shown the message once. -/
def Delivers [Fintype ι] (sys : System ι) (grp : ι → GroupRef) (origin : ι) (content : Bytes) : Prop :=
  (∃ s', Network.Step (sys.node origin) (.broadcast content) s') ∧
  ∀ s', Network.Step (sys.node origin) (.broadcast content) s' →
    ∀ moves sys', (sys.after origin s').Run moves sys' → (∀ a ∈ moves, ∃ c, a = .deliver c) →
      (∀ c ∈ sys'.wire, ∃ sys'', Step sys' (.deliver c) sys'') ∧
      (∀ i, sys.sent sys' i = [] ∨ sys.sent sys' i = (sys.succs grp i).values.map
        (·, ((sys.node origin).dataMessage (grp origin) content).serialize)) ∧
      ∑ i, (sys.sent sys' i).length ≤ ∑ i, (sys.succs grp i).size ∧
      moves.length + sys'.wire.length ≤ ∑ i, (sys.succs grp i).size ∧
      (sys'.wire = [] → ∀ i, sys.displayed sys' i = if i = origin then [] else [content])

theorem broadcast_delivered [Fintype ι] [Nontrivial ι] (h : sys.StaticGroup id gid grp) (hwire : sys.wire = [])
    (origin : ι) (content : Bytes)
    (hn : ∀ i, (sys.node i).findLog ((sys.node origin).dataMessage (grp origin) content) = none) :
    sys.Delivers grp origin content := by
  have hm := data_payload h origin content
  have hw := data_wellFormed h origin content
  refine ⟨?_, fun s' hs' moves sys' hrun hd => ?_⟩
  · obtain ⟨s', hs', -⟩ := originates h origin content hn 0
    exact ⟨s', h.connected origin, 0, hs'⟩
  obtain ⟨st, hs⟩ := (Sim.start h origin content hn hwire hs').run h hm hw hn hrun
  have once : ∀ i, sys.sent sys' i = [] ∨ sys.sent sys' i = (sys.succs grp i).values.map
      (·, ((sys.node origin).dataMessage (grp origin) content).serialize) := by
    intro i
    by_cases hi : i ∈ st.seen
    · exact Or.inr (hs.effects hi).1
    · exact Or.inl (hs.idle hi).1
  refine ⟨fun c hc => hs.deliverable h hm hw hn hc, once, Finset.sum_le_sum fun i _ => ?_, hs.bound hd,
    fun hwire' i => (hs.effects (hs.settled h hd hwire' i)).2⟩
  rcases once i with hi | hi
  · rw [hi]
    exact Nat.zero_le _
  · rw [hi, List.length_map, OrdMap.values, List.length_map]
    exact Nat.le_refl _

omit [Platform] [DecidableEq ι] in
/-- Two nodes, and a message of one byte. -/
theorem broadcast_delivered_pair : ∃ sys : System (Fin 2), @Delivers sha1 (Fin 2) _ _ sys (fun _ => 0) 0 [42] := by
  obtain ⟨sys, gid, h, hwire, hn⟩ := Scenario.pair_static
  exact ⟨sys, @broadcast_delivered sha1 _ _ _ _ _ _ _ _ h hwire 0 [42] hn⟩

/-- Whatever copies get lost: a node that has logged the message has a counter for each of
    its predecessors, and for nobody else, and it is the number of his copies delivered. -/
def Accounts (sys : System ι) (id : ι → Bytes) (grp : ι → GroupRef) (origin : ι) (content : Bytes) : Prop :=
  (∃ s', Network.Step (sys.node origin) (.broadcast content) s') ∧
  ∀ s', Network.Step (sys.node origin) (.broadcast content) s' →
    ∀ moves sys', (sys.after origin s').Run moves sys' →
      ∀ v l, (sys'.node v).findLog ((sys.node origin).dataMessage (grp origin) content) = some l →
        (∀ k, (sys.preds grp v).contains k = true → ∃ u, id u = k) ∧
        (∀ u, (sys.preds grp v).contains (id u) = true →
          l.control.find? (id u) = some (deliveries moves u v) ∧ deliveries moves u v ≤ 1 ∧
          ((∃ c, .deliver c ∈ moves ∧ c.edge = (u, v)) → l.control.find? (id u) = some 1) ∧
          (((sys'.node u).findLog ((sys.node origin).dataMessage (grp origin) content)).isSome →
            sys'.inFlight u v + deliveries moves u v + losses moves u v = 1)) ∧
        ∀ k, (sys.preds grp v).contains k = false → l.control.find? k = none

theorem relays_accounted [Nontrivial ι] (h : sys.StaticGroup id gid grp) (hwire : sys.wire = []) (origin : ι)
    (content : Bytes)
    (hn : ∀ i, (sys.node i).findLog ((sys.node origin).dataMessage (grp origin) content) = none) :
    sys.Accounts id grp origin content := by
  have hm := data_payload h origin content
  have hw := data_wellFormed h origin content
  refine ⟨?_, fun s' hs' moves sys' hrun v l hl => ?_⟩
  · obtain ⟨s', hs', -⟩ := originates h origin content hn 0
    exact ⟨s', h.connected origin, 0, hs'⟩
  obtain ⟨st, hs⟩ := (Sim.start h origin content hn hwire hs').run h hm hw hn hrun
  have seen : ∀ i, ((sys'.node i).findLog ((sys.node origin).dataMessage (grp origin) content)).isSome →
      i ∈ st.seen := by
    intro i hi
    by_contra hc
    rw [hs.unseen i hc, hn i] at hi
    cases hi
  obtain ⟨shown, -, hr⟩ := hs.seen v (seen v (by rw [hl]; rfl))
  obtain ⟨l', hl', hcount⟩ := hr.log
  cases hl.symm.trans hl'
  refine ⟨fun k hk => h.pred_mem v hk, fun u hu => ?_, fun k hk => ?_⟩
  · have hsent := hs.inv.count (fun i => h.successors_nodup i) u v
    have hcopies := hs.count u v
    have hle : deliveries moves u v ≤ 1 := by
      rw [hcopies] at hsent
      split at hsent <;> omega
    have hfind : l.control.find? (id u) = some (deliveries moves u v) := by
      rw [hcount, counted, if_pos hu, deliveries, ← hs.got, Multiset.count]
      congr 2
      funext e
      exact propext ⟨fun he => Prod.ext (h.distinct he.1).symm he.2.symm, fun he => he ▸ ⟨rfl, rfl⟩⟩
    refine ⟨hfind, hle, ?_, fun hlog => ?_⟩
    · rintro ⟨c, hc, he⟩
      have hpos : 0 < deliveries moves u v :=
        Multiset.count_pos.mpr (List.mem_filterMap.mpr ⟨.deliver c, hc, congrArg some he⟩)
      rw [hfind]
      congr 1
      omega
    · rw [← hcopies, hsent, if_pos ⟨seen u hlog, h.mem_preds.mp hu⟩]
  · rw [hcount, counted, hk]
    rfl

omit [Platform] [DecidableEq ι] in
theorem relays_accounted_pair : ∃ sys : System (Fin 2),
    @Accounts sha1 (Fin 2) _ sys Scenario.pairId (fun _ => 0) 0 [42] := by
  obtain ⟨sys, gid, h, hwire, hn⟩ := Scenario.pair_static
  exact ⟨sys, @relays_accounted sha1 _ _ _ _ _ _ _ h hwire 0 [42] hn⟩

end System

end RacKun
