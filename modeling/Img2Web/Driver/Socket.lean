import Img2Web.Driver.Frame
import Img2Web.Driver.Protocol

/-!
A connection and its socket, byte by byte. The server writes frames; the socket
delivers their bytes in chunks of any size, and `response_` puts the messages
together again. Every run is one of `World`, in which whole messages arrive.
-/

namespace Img2Web.Driver

open Text Framing ResponseMessage Relation

structure Socket (ι κ ρ : Type) where
  conn : Connection ι κ ρ
  response : ResponseMessage
  serving : List (Frame κ)
  incoming : Bytes
  closed : Bool

/-- The events that neither write nor read what comes in. -/
def Event.local {ι κ ρ : Type} : Event ι κ ρ → Bool
  | .read _ | .answer _ _ | .event _ => false
  | _ => true

namespace Socket

variable {ι κ ρ : Type} [DecidableEq ι]

def new (protocolVersion : Nat) : Socket ι κ ρ :=
  ⟨.new protocolVersion, ResponseMessage.new, [], [], false⟩

def world (s : Socket ι κ ρ) (inbound : List (Message ρ)) : World ι κ ρ :=
  ⟨s.conn, s.serving, inbound, s.closed⟩

variable (decodeBody : Nat → Header → Bytes → Option ρ)

/-- `on_read` of a chunk of `n` bytes, as far as the messages it completes are
concerned. -/
def read (s : Socket ι κ ρ) (n : Nat) : Socket ι κ ρ :=
  let (messages, response) := (decoder decodeBody).consume s.response (s.incoming.take n)
  let conn := if messages.isEmpty then s.conn else {s.conn with task := .consuming messages}
  {s with
    conn := if response.isNone then conn.close else conn
    response := response.getD s.response
    incoming := s.incoming.drop n}

/-- Of `World` all but the way in. -/
inductive Step (answers : κ → ρ → Prop) (s : Socket ι κ ρ) : Socket ι κ ρ → Prop
  | local {e : Event ι κ ρ} {w : World ι κ ρ} (hlocal : e.local = true)
      (henabled : (s.world []).Enabled answers e) (hperform : (s.world []).perform e = some w) :
      Step answers s {s with conn := w.conn, serving := w.serving, closed := w.closed}
  | answer {i : Nat} {f : Frame κ} {body : ρ} {bytes : Bytes} (hserving : s.serving[i]? = some f)
      (hanswers : answers f.request body)
      (hframe : IsFrame decodeBody bytes (some ⟨f.stream, false, body⟩)) :
      Step answers s {s with serving := s.serving.eraseIdx i, incoming := s.incoming ++ bytes}
  | event {body : ρ} {bytes : Bytes} (hframe : IsFrame decodeBody bytes (some ⟨-1, true, body⟩)) :
      Step answers s {s with incoming := s.incoming ++ bytes}
  | read {n : Nat} (hopen : s.closed = false) (htask : s.conn.task = .idle)
      (hclosing : s.conn.closing = false) : Step answers s (s.read decodeBody n)

/-- `w` is where `s` is, with the messages whose last byte was not read. -/
structure Refines (s : Socket ι κ ρ) (w : World ι κ ρ) : Prop where
  world : w = s.world w.inbound
  stream : ∃ p, Unfinished (IsFrame decodeBody) p ∧ s.response = after p ∧
    Splits (IsFrame decodeBody) (p ++ s.incoming) w.inbound (some [])

/-- What comes in does not matter to the other events. -/
theorem world_local {answers : κ → ρ → Prop} {w : World ι κ ρ} {e : Event ι κ ρ}
    (hlocal : e.local = true) (inbound : List (Message ρ)) :
    ({w with inbound := inbound}.Enabled answers e ↔ w.Enabled answers e) ∧
      {w with inbound := inbound}.perform e =
        (w.perform e).map fun w => {w with inbound := inbound} := by
  cases e with
  | read | answer | event => cases hlocal
  | write | timeout | retry | onClose | onWrite =>
      refine ⟨Iff.rfl, ?_⟩
      simp only [World.perform, Option.map_map]
      rfl
  | flush | close => exact ⟨Iff.rfl, rfl⟩
  | consume d =>
      refine ⟨Iff.rfl, ?_⟩
      simp only [World.perform]
      cases w.conn.task with
      | idle | completing => rfl
      | consuming unread =>
          cases unread with
          | nil => rfl
          | cons m rest =>
              simp only [Option.map_map]
              rfl
  | finishWrite d =>
      refine ⟨Iff.rfl, ?_⟩
      simp only [World.perform]
      cases w.conn.task with
      | idle | consuming => rfl
      | completing ok handlers =>
          cases handlers with
          | nil => rfl
          | cons h rest =>
              simp only [Option.map_map]
              rfl
  | receive =>
      refine ⟨Iff.rfl, ?_⟩
      simp only [World.perform]
      cases w.conn.outbound with
      | nil | cons => rfl

variable {decodeBody}

/-- The step lemma: a step over bytes is a step over messages, or none if no
message is complete after it. -/
theorem Step.refines {answers : κ → ρ → Prop} {s s' : Socket ι κ ρ} {w : World ι κ ρ}
    (hstep : Step decodeBody answers s s') (hw : Refines decodeBody s w) :
    ∃ w', Refines decodeBody s' w' ∧ ReflTransGen (World.Step answers) w w' := by
  obtain ⟨hworld, p, hp, hresponse, hsplits⟩ := hw
  cases hstep with
  | @«local» e next hlocal henabled hperform =>
      obtain ⟨hsame, hnext⟩ := @world_local ι κ ρ _ answers (s.world []) e hlocal w.inbound
      rw [hperform] at hnext
      refine ⟨{next with inbound := w.inbound}, ⟨rfl, p, hp, hresponse, hsplits⟩, .single ⟨e, ?_⟩⟩
      rw [hworld]
      exact ⟨hsame.mpr henabled, hnext⟩
  | @answer i f body bytes hserving hanswers hframe =>
      refine ⟨{w with
        serving := w.serving.eraseIdx i
        inbound := w.inbound ++ [⟨f.stream, false, body⟩]}, ⟨?_, p, hp, hresponse, ?_⟩, ?_⟩
      · rw [hworld]
        rfl
      · have hmore := hsplits.snoc rfl hframe
        rw [List.append_assoc] at hmore
        exact hmore
      · have hfound : w.serving[i]? = some f := by
          rw [hworld]
          exact hserving
        exact .single ⟨.answer i body, ⟨f, hfound, hanswers⟩, congrArg (Option.map _) hfound⟩
  | @event body bytes hframe =>
      refine ⟨{w with inbound := w.inbound ++ [⟨-1, true, body⟩]}, ⟨?_, p, hp, hresponse, ?_⟩,
        .single ⟨.event body, trivial, rfl⟩⟩
      · rw [hworld]
        rfl
      · have hmore := hsplits.snoc rfl hframe
        rw [List.append_assoc] at hmore
        exact hmore
  | @read n hopen htask hclosing =>
      have hcut : p ++ s.incoming = (p ++ s.incoming.take n) ++ s.incoming.drop n := by
        rw [List.append_assoc, List.take_append_drop]
      rcases hsplits.cut hcut with ⟨-, hnone⟩ | ⟨p', ys, zs, hys, hzs, hinbound⟩
      · cases hnone
      have hconsume := (decoder_reads decodeBody).consume hp rfl hys
      rw [← hresponse] at hconsume
      have hp' := hys.unfinished rfl
      have hread : s.read decodeBody n = {s with
          conn := if ys.isEmpty then s.conn else {s.conn with task := .consuming ys}
          response := after p'
          incoming := s.incoming.drop n} := by
        unfold Socket.read
        rw [hconsume]
        rfl
      rw [hread]
      cases ys with
      | nil =>
          refine ⟨w, ⟨hworld, p', hp', rfl, ?_⟩, .refl⟩
          rw [hinbound]
          exact hzs
      | cons m ms =>
          have hlength : w.inbound.length = (m :: ms).length + zs.length := by
            rw [hinbound, List.length_append]
          have htake : w.inbound.take (m :: ms).length = m :: ms := by
            rw [hinbound, List.take_left]
          have hdrop : w.inbound.drop (m :: ms).length = zs := by
            rw [hinbound, List.drop_left]
          refine ⟨⟨{s.conn with task := .consuming (m :: ms)}, s.serving, zs, s.closed⟩,
            ⟨rfl, p', hp', rfl, hzs⟩, .single ⟨.read (m :: ms).length, ?_, ?_⟩⟩
          · rw [hworld]
            exact ⟨hopen, htask, hclosing, Nat.succ_pos _, by show _ ≤ w.inbound.length; omega⟩
          · simp only [World.perform, htake, hdrop]
            rw [hworld]
            rfl

/-- The run lemma: whatever the chunks, a connection over bytes goes through
states of a connection over messages. -/
theorem run_refines {answers : κ → ρ → Prop} {protocolVersion : Nat} {s : Socket ι κ ρ}
    (hs : ReflTransGen (Step decodeBody answers) (new protocolVersion) s) :
    ∃ w, World.Reachable answers protocolVersion w ∧ Refines decodeBody s w := by
  induction hs with
  | refl =>
      exact ⟨.new protocolVersion, .refl, rfl, [], Or.inl rfl, rfl, .tail (Or.inl rfl)⟩
  | tail _ hstep ih =>
      obtain ⟨w, hw, hrefines⟩ := ih
      obtain ⟨w', hrefines', hrun⟩ := hstep.refines hrefines
      exact ⟨w', hw.trans hrun, hrefines'⟩

set_option maxRecDepth 8000 in
/-- The response to request 5 comes in two chunks. -/
theorem run_refines_cut :
    ∃ (s : Socket Nat Nat Nat) (w : World Nat Nat Nat), s.incoming = [2, 0, 0, 0, 1, 5] ∧
      World.Reachable (fun _ r => r = 1) 2 w ∧ Refines (fun _ _ body => some body.length) s w := by
  have hwritten : ReflTransGen (Step (fun _ _ body => some body.length) fun _ r => r = 1)
      (new 2) _ := .single (.local (e := .write 5 7 true true) rfl ⟨rfl, rfl⟩ rfl)
  have hserving := hwritten.tail (.local (e := .receive) rfl (List.cons_ne_nil _ _) rfl)
  have hanswered := hserving.tail (.answer (i := 0) rfl rfl isFrame_ready)
  have hcut := hanswered.tail (.read (n := 4) rfl rfl rfl)
  obtain ⟨w, hw⟩ := run_refines hcut
  exact ⟨_, w, rfl, hw⟩

end Socket

end Img2Web.Driver
