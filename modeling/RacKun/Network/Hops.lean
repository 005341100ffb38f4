/-
  RacKun.Network.Hops — one message on its way through the relays, and in the logs.

  A relay parses what it receives and sends on what it makes of it, not the bytes it has
  read. So the first relay may change a string (a port it cannot read, a flag of 2, text
  in excess), but what it has read is what every relay after it reads.

  - `forward_sends`: all that a relay sends on.
  - `hops_read`: a message after any number of hops.
-/

import RacKun.Network.Ledger
import RacKun.Network.LocalPeer

namespace RacKun

open Lib (OrdMap)

open Scenario

namespace Network

/-- A relay that has received the one string may send the other on. -/
def RelaysTo [Platform] (received sent : Bytes) : Prop :=
  ∃ (s s' : Network) (m : Message) (q : PeerRef), parseMessage received = .ok m ∧ s.forward m = .ok s' ∧
    .sent q sent ∈ s.effects s'

/-- Any number of relays, each on a platform of its own. -/
def Hops : Bytes → Bytes → Prop := Relation.ReflTransGen fun received sent => ∃ P : Platform, @RelaysTo P received sent

variable [Platform]

theorem forward_sends {s s' : Network} {m : Message} (h : s.forward m = .ok s') {q : PeerRef} {bytes : Bytes}
    (hb : .sent q bytes ∈ s.effects s') : bytes = m.serialize := by
  have nothing : .sent q bytes ∉ s.effects s := by
    rw [effects_append (List.append_nil _).symm]
    exact List.not_mem_nil
  unfold forward at h
  split at h
  · cases h
    exact absurd hb nothing
  · split at h
    · cases h
      exact absurd hb nothing
    · split at h
      · cases h
      · rw [broadcast_relayed] at h
        rw [effects_append (logMessage_logs h).trace] at hb
        exact copies_of hb

theorem relay_read {received sent : Bytes} {m : Message} (hm : parseMessage received = .ok m)
    (h : RelaysTo received sent) : sent = m.serialize := by
  obtain ⟨s, s', m', q, hm', hf, hb⟩ := h
  obtain rfl : m = m' := Except.ok.inj (hm.symm.trans hm')
  exact forward_sends hf hb

omit [Platform] in
/-- What has been written of a message is read as that message at every hop. -/
theorem hops_read {P : Platform} {received last : Bytes} {m : Message} (hm : @parseMessage P received = .ok m)
    (h : Hops m.serialize last) (P' : Platform) : @parseMessage P' last = .ok m := by
  suffices last = m.serialize by
    rw [this]
    exact parse_stable hm
  induction h with
  | refl => rfl
  | tail _ hr ih =>
    obtain ⟨Q, hr⟩ := hr
    rw [ih] at hr
    exact @relay_read Q _ _ m (parse_stable hm) hr

/-- Every message in the log is stamped by this node or has been received. -/
theorem Past.logged {allowed : Steps → Network → Event → Prop} {h : Steps} {s : Network} (hp : Past allowed h s) :
    ∀ l ∈ s.logs.entries, MadeBy (s.getId s.localPeer) l.message ∨
      ∃ x ∈ h, ∃ m ∈ heard x.2, l.message = m.serialize := by
  induction hp with
  | start id pubK port clock => exact fun l hl => by cases hl
  | @step h s s' e hp _ hst ih =>
    have hid : s'.getId s'.localPeer = s.getId s.localPeer := by
      obtain ⟨he, rounds, hh⟩ := id hst
      rw [handle_membership hh]
      exact Membership.apply_author hp.sound (change_awaits he)
    rw [hid]
    intro l hl
    rcases (step_books hp.reach hst).messages l hl with ⟨k, hk, he⟩ | hown | ⟨m, hm, he⟩
    · rw [← he]
      exact (ih k hk).imp_right fun ⟨x, hx, hm⟩ => ⟨x, List.mem_cons_of_mem _ hx, hm⟩
    · exact Or.inl hown
    · exact Or.inr ⟨(s, e), List.mem_cons_self, m, hm, he⟩

/-- What has been parsed stays what it is when it is written and parsed again: at every
    hop, and in the log. -/
theorem relaying_stable {h : Steps} {s : Network} (hp : Past (fun _ _ _ => True) h s) :
    (∀ received m, parseMessage received = .ok m → ∀ P : Platform, @parseMessage P m.serialize = .ok m) ∧
    (∀ received sent m last, parseMessage received = .ok m → RelaysTo received sent → Hops sent last →
      ∀ P : Platform, @parseMessage P last = .ok m) ∧
    ∀ l ∈ s.logs.entries,
      (MadeBy (s.getId s.localPeer) l.message ∨ ∃ x ∈ h, ∃ m ∈ heard x.2, l.message = m.serialize) ∧
      ∀ x ∈ h, ∀ m ∈ heard x.2, l.message = m.serialize → parseMessage l.message = .ok m := by
  refine ⟨fun received m hm P => parse_stable hm, fun received sent m last hm hr hh => ?_, fun l hl =>
    ⟨hp.logged l hl, fun x hx m hm he => ?_⟩⟩
  · rw [relay_read hm hr] at hh
    exact hops_read hm hh
  · rw [he]
    cases hx : x.2 with
    | read p received reached =>
      rw [hx] at hm
      cases hr : parseMessage received with
      | error e => simp [heard, hr, Except.toOption] at hm
      | ok m' =>
        obtain rfl : m' = m := by simpa [heard, hr, Except.toOption] using hm
        exact parse_stable hr
    | _ =>
      rw [hx] at hm
      cases hm

omit [Platform] in
/-- A request with text after its port. -/
theorem relaying_stable_excess : ∃ h s, @Past sha1 (fun _ _ _ => True) h s ∧
    ∃ l ∈ s.logs.entries, l.message = request 65 ∧
      @parseMessage sha1 l.message = @parseMessage sha1 (request 65 ++ ascii "x") ∧
      @parseMessage sha1 l.message = .ok ⟨idOf 65, .join (idOf 65) (List.replicate 5 65) 7⟩ := by
  have hm : @parseMessage sha1 (request 65 ++ ascii "x") = .ok ⟨idOf 65, .join (idOf 65) (List.replicate 5 65) 7⟩ := by
    decide +kernel
  have hrun : @livesTo sha1 (fun _ _ _ => True) _ node [.accept [9], .read 1 (request 65 ++ ascii "x") none]
      (fun _ s => s.logs.entries.any fun l => decide (l.message = request 65)) = true := by
    decide +kernel
  obtain ⟨h, s, hp, ht⟩ := @past_of_livesTo sha1 _ _ _ _ _ _ _ _ hrun
  obtain ⟨l, hl, ht⟩ := List.any_eq_true.mp ht
  have ht := of_decide_eq_true ht
  have hr := (@relaying_stable sha1 h s hp).1 _ _ hm sha1
  have hl' : @parseMessage sha1 l.message = .ok ⟨idOf 65, .join (idOf 65) (List.replicate 5 65) 7⟩ := by
    rw [ht]
    exact hr
  exact ⟨h, s, hp, l, hl, ht, hl'.trans hm.symm, hl'⟩

end Network

end RacKun
