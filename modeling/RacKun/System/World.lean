/-
  RacKun.System.World — all nodes together: each handles its events one at a time, and they
  are joined by the connections they make (`Lib.Net`).

  A peer object is the name a node has for its end of a connection. What a handler sends is
  written on it, and `connect_peer` reaches whoever answers at the endpoint, or throws. Each
  send is read as one read: it fits the buffer (`messages_fit`), but nothing keeps TCP from
  joining two of them. A process that ends is found out by an EOF on the connections with
  it; it ends between two events.
-/

import RacKun.Lib.Net
import RacKun.Network.Introductions

namespace RacKun

open Lib (Net)

open Lib.Net (Input Output Action)

/-- The nodes: what each calls itself, where it is, and who answers at an endpoint. -/
structure Site (ι : Type) where
  id : ι → Bytes
  key : ι → Bytes
  address : ι → Bytes
  listens : Bytes → Bytes → Option ι

abbrev World (ι : Type) := Net ι Network PeerRef Bytes

/-- The outcome of `connect_peer`, where it is called. -/
def Event.reached : Event → Option Bytes
  | .read _ _ reached => reached
  | .join _ _ reached => reached
  | _ => none

/-- A timer, a command, or a failed read: nothing another node has a part in. -/
def Event.Own : Event → Prop
  | .accept _ => False
  | .read _ _ _ => False
  | .eof _ => False
  | _ => True

namespace Site

variable {ι : Type} (site : Site ι)

/-- What an effect does to the connections. -/
def output : Effect → Option (Output ι PeerRef Bytes)
  | .sent p bytes => some (.send p bytes)
  | .connected p ip port => (site.listens ip port).map (.dial p)
  | .displayed _ _ => none
  | .reported _ => none

def outputs (es : List Effect) : List (Output ι PeerRef Bytes) := es.filterMap site.output

/-- Whoever was connected to was there, at this address. -/
def Reaches (e : Event) (es : List Effect) : Prop :=
  ∀ p ip port, .connected p ip port ∈ es → ∃ j, site.listens ip port = some j ∧ e.reached = some (site.address j)

/-- How a node answers what comes to it: it handles the event. -/
inductive Acts [Platform] (i : ι) (s : Network) : Input ι PeerRef Bytes Event → Network →
    List (Output ι PeerRef Bytes) → Prop
  | own {e : Event} {s' : Network} : e.Own → s.Step e s' → site.Reaches e (s.effects s') →
    Acts i s (.own e) s' (site.outputs (s.effects s'))
  | accept {j : ι} {r : PeerRef} {s' : Network} : s.Step (.accept (site.address j)) s' →
    Acts i s (.accept j r s.peerCount) s' (site.outputs (s.effects s'))
  | read {p : PeerRef} {received : Bytes} {reached : Option Bytes} {s' : Network} :
    s.Step (.read p received reached) s' → site.Reaches (.read p received reached) (s.effects s') →
    Acts i s (.read p received) s' (site.outputs (s.effects s'))
  | close {p : PeerRef} {s' : Network} : s.Step (.eof p) s' → Acts i s (.close p) s' (site.outputs (s.effects s'))

end Site

namespace Site

variable {ι : Type} (site : Site ι)

/-- The event that an input is, with connections made wherever somebody answers. -/
def event [Platform] (s : Network) : Input ι PeerRef Bytes Event → Option Event
  | .own (.accept _) => none
  | .own (.read _ _ _) => none
  | .own (.eof _) => none
  | .own e => some e
  | .accept j _ p => if p = s.peerCount then some (.accept (site.address j)) else none
  | .read p received => some (.read p received
      ((s.dials (.read p received (some []))).bind fun x => (site.listens x.1 x.2).map site.address))
  | .close p => some (.eof p)

def reaches (e : Event) (es : List Effect) : Bool :=
  es.all fun
    | .connected _ ip port => (site.listens ip port).any fun j => e.reached = some (site.address j)
    | _ => true

/-- How a node answers, computed. -/
def reply [Platform] (_ : ι) (s : Network) (inp : Input ι PeerRef Bytes Event) :
    Option (Network × List (Output ι PeerRef Bytes)) := do
  let e ← site.event s inp
  if s.Enabled e then
    match Network.handle 1 s e with
    | .ok s' => if site.reaches e (s.effects s') then some (s', site.outputs (s.effects s')) else none
    | .error _ => none
  else none

end Site

/-- All nodes just started. -/
def Site.start {ι : Type} (site : Site ι) (ports : ι → Port) (clocks : ι → Nat → Nat) : World ι where
  node i := Network.start (site.id i) (site.key i) (ports i) (clocks i)
  peer _ _ := none
  mate _ _ := none
  queue _ _ := []
  gone _ := false

namespace Site

variable {ι : Type} {site : Site ι}

theorem reaches_iff {e : Event} {es : List Effect} (h : site.reaches e es = true) : site.Reaches e es := by
  intro p ip port hc
  have hj := List.all_eq_true.mp h _ hc
  cases hl : site.listens ip port with
  | none => simp [hl] at hj
  | some j => exact ⟨j, rfl, by simpa [hl] using hj⟩

/-- What is computed is an answer. -/
theorem reply_acts [Platform] {i : ι} {s s' : Network} {inp : Input ι PeerRef Bytes Event}
    {out : List (Output ι PeerRef Bytes)} (h : site.reply i s inp = some (s', out)) : site.Acts i s inp s' out := by
  obtain ⟨e, he, h⟩ := Option.bind_eq_some_iff.mp h
  split at h
  · rename_i hen
    cases hh : Network.handle 1 s e with
    | error stop => simp [hh] at h
    | ok t =>
      simp only [hh, Option.ite_none_right_eq_some, Option.some.injEq, Prod.mk.injEq] at h
      obtain ⟨hr, rfl, rfl⟩ := h
      have hst : s.Step e t := ⟨hen, 1, hh⟩
      have hr := reaches_iff hr
      cases inp with
      | own a => cases a <;> cases he <;> exact .own trivial hst hr
      | accept j r p =>
        simp only [event, Option.ite_none_right_eq_some, Option.some.injEq] at he
        obtain ⟨rfl, rfl⟩ := he
        exact .accept hst
      | read p received =>
        cases he
        exact .read hst hr
      | close p =>
        cases he
        exact .close hst
  · cases h

theorem send_mem {es : List Effect} {p : PeerRef} {bytes : Bytes} :
    .send p bytes ∈ site.outputs es ↔ .sent p bytes ∈ es := by
  rw [outputs, List.mem_filterMap]
  constructor
  · rintro ⟨e, he, ho⟩
    cases e with
    | sent q b => cases ho; exact he
    | connected q ip port =>
      obtain ⟨j, -, hj⟩ := Option.map_eq_some_iff.mp ho
      cases hj
    | displayed emitter data => cases ho
    | reported msg => cases ho
  · exact fun h => ⟨_, h, rfl⟩

theorem dial_mem {es : List Effect} {p : PeerRef} {j : ι} :
    .dial p j ∈ site.outputs es ↔ ∃ ip port, .connected p ip port ∈ es ∧ site.listens ip port = some j := by
  rw [outputs, List.mem_filterMap]
  constructor
  · rintro ⟨e, he, ho⟩
    cases e with
    | connected q ip port =>
      obtain ⟨j', hj', hj⟩ := Option.map_eq_some_iff.mp ho
      cases hj
      exact ⟨ip, port, he, hj'⟩
    | sent q b => cases ho
    | displayed emitter data => cases ho
    | reported msg => cases ho
  · rintro ⟨ip, port, he, hl⟩
    exact ⟨_, he, by rw [output, hl]; rfl⟩

variable [Platform]

/-- The event behind a node's answer. -/
inductive Caused (site : Site ι) (s : Network) : Input ι PeerRef Bytes Event → Event → Prop
  | own {e : Event} : e.Own → Caused site s (.own e) e
  | accept (j : ι) (r : PeerRef) : Caused site s (.accept j r s.peerCount) (.accept (site.address j))
  | read (p : PeerRef) (received : Bytes) (reached : Option Bytes) :
    Caused site s (.read p received) (.read p received reached)
  | close (p : PeerRef) : Caused site s (.close p) (.eof p)

theorem Acts.event {i : ι} {s s' : Network} {inp : Input ι PeerRef Bytes Event} {out : List (Output ι PeerRef Bytes)}
    (h : site.Acts i s inp s' out) (hs : s.toMembership.Sound) : ∃ e, site.Caused s inp e ∧ s.Step e s' ∧
      site.Reaches e (s.effects s') ∧ out = site.outputs (s.effects s') := by
  -- nothing is connected to
  have none : ∀ {e : Event}, s.Step e s' → s.dials e = none → site.Reaches e (s.effects s') := by
    rintro e ⟨he, rounds, hh⟩ hd p ip port hc
    have hp := Network.speech_plain ((Network.handle_speech hs he hh).other hc fun q b hq => by cases hq)
    cases hp with
    | connected hc => rw [hd] at hc; cases hc
  cases h with
  | own he hst hr => exact ⟨_, .own he, hst, hr, rfl⟩
  | accept hst => exact ⟨_, .accept _ _, hst, none hst rfl, rfl⟩
  | read hst hr => exact ⟨_, .read _ _ _, hst, hr, rfl⟩
  | close hst => exact ⟨_, .close _, hst, none hst rfl, rfl⟩

/-- Whom a step connects us to, and under which name. -/
theorem dialed_step {s s' : Network} {e : Event} (hs : s.toMembership.Sound) (hst : s.Step e s') (p : PeerRef) :
    Lib.Net.dialed p (site.outputs (s.effects s')) =
      if p = s.peerCount then (s.dials e).bind fun x => site.listens x.1 x.2 else none := by
  obtain ⟨he, rounds, hh⟩ := hst
  have hr := Network.handle_speech hs he hh
  -- a connection is to where the event says
  have only : ∀ {q j}, .dial q j ∈ site.outputs (s.effects s') →
      q = s.peerCount ∧ ((s.dials e).bind fun x => site.listens x.1 x.2) = some j := by
    intro q j hd
    obtain ⟨ip, port, hc, hl⟩ := dial_mem.mp hd
    have hp := Network.speech_plain (hr.other hc fun q b hq => by cases hq)
    cases hp with
    | connected hc => exact ⟨rfl, by rw [hc]; exact hl⟩
  cases hd : Lib.Net.dialed p (site.outputs (s.effects s')) with
  | some j =>
    obtain ⟨rfl, hj⟩ := only (Lib.Net.dialed_mem hd)
    rw [if_pos rfl, hj]
  | none =>
    split
    · rename_i hp
      cases hb : (s.dials e).bind fun x => site.listens x.1 x.2 with
      | none => rfl
      | some j =>
        obtain ⟨⟨ip, port⟩, hx, hl⟩ := Option.bind_eq_some_iff.mp hb
        have hm := dial_mem.mpr ⟨ip, port, hr.done (Network.dials_connected hx), hl⟩
        rw [hp] at hd
        rw [Lib.Net.dialed, List.findSome?_eq_none_iff] at hd
        have := hd _ hm
        simp at this
    · rfl

end Site

/-! ## Two nodes -/

namespace Scenario

open Lib.Net (Cue)

/-- One at `a`, the other at `b`. -/
def town : Site Bool where
  id i := if i then idOf 2 else idOf 1
  key i := if i then List.replicate KEY_LENGTH 2 else List.replicate KEY_LENGTH 1
  address i := if i then ascii "b" else ascii "a"
  listens ip _ := if ip = ascii "a" then some false else if ip = ascii "b" then some true else none

/-- The first joins through the second, and says something. -/
def visit : List (Cue Bool PeerRef Bytes Event) :=
  [.move (.act false (.own (.join (ascii "b") (ascii "7") (some (ascii "b"))))), .move (.act true (.accept false 1 1)),
    .next true 1, .next false 1, .move (.act true (.own (.readyTimer (idOf 1)))), .next false 1, .next true 1,
    .move (.act false (.own (.broadcast (ascii "hi")))), .next true 1]

/-- What has become of it. -/
def visited [Platform] : Option (List (Action Bool PeerRef Bytes Event) × World Bool) :=
  Lib.Net.perform town.reply (town.start (fun _ => 7) fun _ t => t) visit

end Scenario

end RacKun
