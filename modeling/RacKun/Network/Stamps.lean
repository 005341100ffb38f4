/-
  RacKun.Network.Stamps — the stamps of the messages a node originates.

  A stamp is the hash of the author's ID, of the time in milliseconds and of the type,
  one after the other. IDs have one length, numbers are printed without leading zeros and
  the type is one byte, so nothing is confused with anything else; but nothing tells two
  messages of one type apart that a node originates within one millisecond.

  - `originating_calls`: the call of `broadcast` with a stamp to add.
  - `recipe_injective`: what is hashed determines author, time and type.
-/

import RacKun.Network.Frame
import RacKun.Network.Past

namespace RacKun

open Lib (OrdMap bind_ok pure_ok ok_bind)

open Scenario

/-- What `make_stamp` hashes. -/
def recipe (id : Bytes) (r : Nat × MessageType) : Bytes := id ++ itos r.1 ++ [r.2.code]

theorem code_injective : Function.Injective MessageType.code := by
  intro a b h
  cases a <;> cases b <;> first | rfl | exact absurd h (by decide)

/-- What is hashed determines author, time and type. -/
theorem recipe_injective {id id' : Bytes} {r r' : Nat × MessageType} (hl : id.length = id'.length)
    (h : recipe id r = recipe id' r') : id = id' ∧ r = r' := by
  obtain ⟨now, type⟩ := r
  obtain ⟨now', type'⟩ := r'
  have h : id ++ (itos now ++ [type.code]) = id' ++ (itos now' ++ [type'.code]) := by
    simpa only [recipe, List.append_assoc] using h
  obtain ⟨hid, h⟩ := List.append_inj h hl
  obtain ⟨hn, hc⟩ := List.append_inj' h rfl
  refine ⟨hid, Prod.ext (itos_injective hn) (code_injective ?_)⟩
  exact List.head_eq_of_cons_eq hc

namespace Network

variable [Platform]

/-! ## What a node originates -/

/-- The call of `broadcast` with a stamp to add that `answer_join_request` makes: the state,
    the group and the message. -/
def notifying (s : Network) (p : PeerRef) (port : Port) : Option (Network × GroupRef × Payload) :=
  let s := { s with joinToken := false }
  let x := s.peer p
  s.localGroup.map fun g =>
    (s, g, .joinNotif (s.makeChannelMarker g g) false (s.group g).id x.id x.pubIdKey x.address port)

/-- The one an event leads to. -/
def originating (s : Network) (e : Event) : Option (Network × GroupRef × Payload) :=
  match e with
  | .broadcast content => s.localGroup.map fun g => (s, g, .data (s.makeChannelMarker g g) content)
  | e => (s.answering e).bind fun r => r.1.notifying r.2.1 r.2.2

theorem notifying_calls {s t : Network} {p : PeerRef} {port : Port} {g : GroupRef} {payload : Payload}
    (h : s.notifying p port = some (t, g, payload)) : t.toMembership = { s.toMembership with joinToken := false } ∧
      t.clock = s.clock ∧ ∃ rest : Network → Except Stop Network,
        s.answerJoinRequest p port = (t.broadcast g ⟨[], payload⟩ true >>= rest) := by
  obtain ⟨g', hg, he⟩ := Option.map_eq_some_iff.mp h
  cases he
  refine ⟨rfl, rfl, fun u => do
    let u := { u with newPeers := u.newPeers.erase (s.peer p).address }
    let u ← u.acknowledgeJoin p g
    pure { u with toMembership := u.armReadyTimer p }, ?_⟩
  have hd : ({ s with joinToken := false } : Network).derefLocalGroup = .ok g := derefLocalGroup_ok.mpr hg
  rw [answerJoinRequest]
  simp only [hd, ok_bind]

/-- An event that is no broadcast of ours answers a request. -/
theorem originating_cases {s t : Network} {e : Event} {g : GroupRef} {payload : Payload}
    (h : s.originating e = some (t, g, payload)) :
    (∃ content, e = .broadcast content ∧ t = s ∧ s.localGroup = some g ∧
      payload = .data (s.makeChannelMarker g g) content) ∨
    ∃ u p port, s.answering e = some (u, p, port) ∧ u.notifying p port = some (t, g, payload) := by
  by_cases hb : ∃ content, e = .broadcast content
  · obtain ⟨content, rfl⟩ := hb
    obtain ⟨g', hg, he⟩ := Option.map_eq_some_iff.mp h
    cases he
    exact Or.inl ⟨content, rfl, rfl, hg, rfl⟩
  · have h : ((s.answering e).bind fun r => r.1.notifying r.2.1 r.2.2) = some (t, g, payload) := by
      cases e with
      | broadcast content => exact absurd ⟨content, rfl⟩ hb
      | _ => exact h
    obtain ⟨⟨u, p, port⟩, ha, h⟩ := Option.bind_eq_some_iff.mp h
    exact Or.inr ⟨u, p, port, ha, h⟩

/-- The call is made. -/
theorem originating_calls {s t : Network} {e : Event} {g : GroupRef} {payload : Payload}
    (h : s.originating e = some (t, g, payload)) : ∃ rest : Network → Except Stop Network, ∀ rounds,
      handle rounds s e = (t.broadcast g ⟨[], payload⟩ true >>= rest) := by
  rcases originating_cases h with ⟨content, rfl, rfl, hg, rfl⟩ | ⟨u, p, port, ha, hn⟩
  · refine ⟨pure, fun rounds => ?_⟩
    show t.broadcastData content = _
    rw [broadcastData, derefLocalGroup_ok.mpr hg, ok_bind, bind_pure]
  · obtain ⟨-, -, rest, hr⟩ := notifying_calls hn
    exact ⟨rest, fun rounds => (handle_answering ha rounds).trans hr⟩

/-! ## Its author -/

/-- Whoever answers is the local peer. -/
theorem answering_author {s t : Network} (hs : s.toMembership.Sound) {e : Event} (he : s.Enabled e) {p : PeerRef}
    {port : Port} (h : s.answering e = some (t, p, port)) : t.getId t.localPeer = s.getId s.localPeer := by
  cases e with
  | read q received reached =>
    have hq := hs.listening q he
    simp only [answering] at h
    split at h
    · cases h
    · split at h
      · cases h
      · split at h
        · rename_i u hu
          obtain ⟨v, hv, hu⟩ := bind_ok.mp hu
          have hum := (relayed_same hv hu).1
          unfold answeringMessage at h
          split at h
          · split at h
            · rename_i w hw
              split at h
              · cases h
                have hg := greeted_membership hw
                rw [hum] at hg
                rw [hg, Membership.greet_localPeer, Membership.greet_ids, Membership.renamed,
                  Function.update_of_ne hq.2.symm]
              · cases h
            · cases h
          · obtain ⟨rfl, -⟩ := answeringNew_some h
            show (u.setState q .connected).getId u.localPeer = _
            rw [Membership.setState_getId, hum]
          · cases h
        · cases h
  | joinTimer id =>
    simp only [answering] at h
    split at h
    · rename_i t' ht
      obtain ⟨rfl, -⟩ := answeringNew_some h
      exact congrFun (Membership.setState_getId _ t'.peer .connected) s.localPeer
    · cases h
  | accept address => cases h
  | eof q => cases h
  | readError q => cases h
  | readyTimer id => cases h
  | join ip port' reached => cases h
  | broadcast content => cases h
  | sendAll message => cases h

theorem originating_author {s t : Network} (hs : s.toMembership.Sound) {e : Event} (he : s.Enabled e) {g : GroupRef}
    {payload : Payload} (h : s.originating e = some (t, g, payload)) : t.getId t.localPeer = s.getId s.localPeer := by
  rcases originating_cases h with ⟨content, -, rfl, -⟩ | ⟨u, p, port, ha, hn⟩
  · rfl
  · rw [← answering_author hs he ha, (notifying_calls hn).1]
    rfl

/-! ## Runs -/

/-- The stamps of the messages originated so far. -/
def stamps (h : Steps) : List Bytes :=
  h.filterMap fun x => (x.1.originating x.2).map fun r => stampOf (r.1.makeStamp r.2.2).1

/-- What has been hashed for them. -/
def hashed (h : Steps) : List Bytes :=
  h.filterMap fun x => (x.1.originating x.2).map fun r => recipe (r.1.getId r.1.localPeer) (r.1.clock 0, r.2.2.type)

/-- The readings of the clock, and the types. -/
def readings (h : Steps) : List (Nat × MessageType) :=
  h.filterMap fun x => (x.1.originating x.2).map fun r => (r.1.clock 0, r.2.2.type)

theorem stamps_hashed (h : Steps) : stamps h = (hashed h).map makeHash := by
  rw [stamps, hashed, List.map_filterMap]
  congr 1
  funext x
  rw [Option.map_map]
  congr 1
  funext r
  -- a stamp has the length the log compares
  have hl : (makeHash (recipe (r.1.getId r.1.localPeer) (r.1.clock 0, r.2.2.type))).length = MSG_STAMP_LENGTH :=
    Platform.makeHash_length _
  exact List.take_left' hl

theorem Past.hashed {allowed : Steps → Network → Event → Prop} {h : Steps} {s : Network} (hp : Past allowed h s) :
    hashed h = (readings h).map (recipe (s.getId s.localPeer)) := by
  induction hp with
  | start id pubK port clock => rfl
  | @step h s s' e hp ha hst ih =>
    obtain ⟨he, rounds, hh⟩ := hst
    have hid : s'.getId s'.localPeer = s.getId s.localPeer := by
      rw [handle_membership hh]
      exact Membership.apply_author hp.sound (change_awaits he)
    rw [hid, Network.hashed, readings, List.filterMap_cons, List.filterMap_cons]
    cases ho : s.originating e with
    | none => exact ih
    | some r =>
      obtain ⟨t, g, payload⟩ := r
      have hauthor := originating_author hp.sound he ho
      simp only [Option.map_some, List.map_cons, hauthor]
      exact congrArg _ ih

/-- No two messages originated in these runs have one stamp. -/
def StampsDiffer {ι : Type} (h : ι → Steps) : Prop :=
  (∀ i, (stamps (h i)).Nodup) ∧ ∀ i j, i ≠ j → (stamps (h i)).Disjoint (stamps (h j))

/-- Nodes with different IDs originate messages with different stamps exactly when no node
    originates two of one type at one reading of its clock. -/
theorem stamps_differ_iff {ι : Type} {h : ι → Steps} {s : ι → Network} (hp : ∀ i, Past (fun _ _ _ => True) (h i) (s i))
    (hl : ∀ i, ((s i).getId (s i).localPeer).length = ID_LENGTH)
    (hd : Function.Injective fun i => (s i).getId (s i).localPeer)
    (hash : Set.InjOn makeHash {x | ∃ i, x ∈ hashed (h i)}) : StampsDiffer h ↔ ∀ i, (readings (h i)).Nodup := by
  have own : ∀ i, Function.Injective (recipe ((s i).getId (s i).localPeer)) := fun i r r' hr =>
    (recipe_injective rfl hr).2
  have nodup : ∀ i, (stamps (h i)).Nodup ↔ (readings (h i)).Nodup := by
    intro i
    rw [← List.nodup_map_iff (own i), ← (hp i).hashed, stamps_hashed]
    exact ⟨List.Nodup.of_map _, List.Nodup.map_on fun x hx y hy hxy => hash ⟨i, hx⟩ ⟨i, hy⟩ hxy⟩
  have disjoint : ∀ i j, i ≠ j → (stamps (h i)).Disjoint (stamps (h j)) := by
    intro i j hij stamp hi hj
    rw [stamps_hashed] at hi hj
    obtain ⟨x, hx, hxs⟩ := List.mem_map.mp hi
    obtain ⟨y, hy, hys⟩ := List.mem_map.mp hj
    obtain rfl : x = y := hash ⟨i, hx⟩ ⟨j, hy⟩ (hxs.trans hys.symm)
    rw [(hp i).hashed] at hx
    rw [(hp j).hashed] at hy
    obtain ⟨r, -, hr⟩ := List.mem_map.mp hx
    obtain ⟨r', -, hr'⟩ := List.mem_map.mp hy
    exact hij (hd (recipe_injective ((hl i).trans (hl j).symm) (hr.trans hr'.symm)).1)
  exact ⟨fun hs i => (nodup i).mp (hs.1 i), fun hr => ⟨fun i => (nodup i).mpr (hr i), disjoint⟩⟩

omit [Platform] in
/-- Two nodes, each asked by somebody and then broadcasting. -/
theorem stamps_differ_two : ∃ (h : Bool → Steps) (s : Bool → Network), (∀ i, @Past sha1 (fun _ _ _ => True) (h i) (s i)) ∧
    (∀ i, (@stamps sha1 (h i)).length = 2) ∧ @StampsDiffer sha1 Bool h := by
  have hrun : ∀ i : Bool, @livesTo sha1 (fun _ _ _ => True) _ (start (idOf (if i then 1 else 0)) [] 7 fun t => t)
      [.accept [9], .read 1 (request 65) none, .broadcast [1]] (fun h s =>
        decide (s.getId s.localPeer = idOf (if i then 1 else 0) ∧ @hashed sha1 h =
          [(3, MessageType.data), (1, .joinNotif)].map (recipe (idOf (if i then 1 else 0))))) = true := by
    decide +kernel
  choose h s hp ht using fun i => @past_of_livesTo sha1 _ _ _ _ _ _ _ _ (hrun i)
  have ht := fun i => of_decide_eq_true (ht i)
  have hash : (([false, true].flatMap fun i : Bool => [(3, MessageType.data), (1, .joinNotif)].map
      (recipe (idOf (if i then 1 else 0)))).map (@makeHash sha1)).Nodup := by
    decide +kernel
  have ids : ∀ i j : Bool, idOf (if i then 1 else 0) = idOf (if j then 1 else 0) → i = j := by decide
  have hashed : ∀ i x, x ∈ @hashed sha1 (h i) → x ∈ [false, true].flatMap fun i : Bool =>
      [(3, MessageType.data), (1, .joinNotif)].map (recipe (idOf (if i then 1 else 0))) := by
    intro i x hx
    rw [(ht i).2] at hx
    exact List.mem_flatMap.mpr ⟨i, by cases i <;> decide, hx⟩
  have two : ∀ i, (@stamps sha1 (h i)).length = 2 := by
    intro i
    rw [@stamps_hashed sha1, (ht i).2]
    rfl
  have nodup : ∀ i, (@readings sha1 (h i)).Nodup := by
    intro i
    refine List.Nodup.of_map (recipe ((s i).getId (s i).localPeer)) ?_
    rw [← @Past.hashed sha1 _ _ _ (hp i), (ht i).2]
    exact List.Nodup.map (fun r r' hr => (recipe_injective rfl hr).2) (by decide)
  refine ⟨h, s, hp, two, (@stamps_differ_iff sha1 Bool h s hp (fun i => ?_) (fun i j hij => ?_) ?_).mpr nodup⟩
  · rw [(ht i).1]
    cases i <;> rfl
  · have hij : (s i).getId (s i).localPeer = (s j).getId (s j).localPeer := hij
    rw [(ht i).1, (ht j).1] at hij
    exact ids i j hij
  · rintro x ⟨i, hx⟩ y ⟨j, hy⟩ hxy
    exact List.inj_on_of_nodup_map hash (hashed i x hx) (hashed j y hy) hxy

omit [Platform] in
/-- Two broadcasts within one millisecond. -/
theorem stamp_twice : ¬ ∀ id pubK port clock es r, id.length = ID_LENGTH → Monotone clock →
    @relive sha1 (fun _ _ _ => True) _ [] (start id pubK port clock) es = .ok r →
    Set.InjOn (@makeHash sha1) {x | x ∈ @hashed sha1 r.1} → @StampsDiffer sha1 Unit fun _ => r.1 := by
  intro hall
  have hrun : @livesTo sha1 (fun _ _ _ => True) _ (start (idOf 0) [] 7 fun _ => 0)
      [.accept [9], .read 1 (request 65) none, .broadcast [1], .broadcast [2]] (fun h _ => decide (@hashed sha1 h =
        [(0, MessageType.data), (0, .data), (0, .joinNotif)].map (recipe (idOf 0)))) = true := by
    decide +kernel
  have hash : (([(0, MessageType.data), (0, .joinNotif)].map (recipe (idOf 0))).map (@makeHash sha1)).Nodup := by
    decide +kernel
  obtain ⟨r, hr, ht⟩ := @relive_of_livesTo sha1 _ _ _ _ _ hrun
  have ht := of_decide_eq_true ht
  have mem : ∀ x ∈ @hashed sha1 r.1, x ∈ [(0, MessageType.data), (0, .joinNotif)].map (recipe (idOf 0)) := by
    intro x hx
    rw [ht] at hx
    revert x
    decide
  have hd := hall (idOf 0) [] 7 (fun _ => 0) _ r rfl monotone_const hr fun x hx y hy hxy =>
    List.inj_on_of_nodup_map hash (mem x hx) (mem y hy) hxy
  have hn := hd.1 ()
  rw [@stamps_hashed sha1, ht] at hn
  exact (List.nodup_cons.mp hn).1 List.mem_cons_self

end Network

end RacKun
