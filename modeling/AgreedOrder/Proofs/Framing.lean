/-
  AgreedOrder.Proofs.Framing

  From the queue of a sender to the reader at the other end of the link. What
  a call leaves in a queue that succeeds without waiting for room is one line,
  which holds the frame; what is read of a link after an accepted greeting are
  the frames on its lines, in order, without those whose line is longer than
  the reader's limit. A sender knows of no limit: a line that is too long is
  queued and written like any other, and is passed over at the far end.

    * `long_line_unread` — such a line at a limit that admits the greeting.
    * `accepted_read_within` — what is queued, and what is read of it.
-/

import AgreedOrder.Member.Ordering
import AgreedOrder.Proofs.Connection
import AgreedOrder.Proofs.Envelope
import AgreedOrder.Proofs.Sending

namespace AgreedOrder.Framing

open Json LineReader Connection

/-! ## Links -/

/-- The bytes of lines as they are written to a link. -/
def wire (lines : List String) : Bytes :=
  lines.flatMap fun line => Bytes.ofText line ++ [0x0A]

/-- The line that opens every link of a member. -/
def greeting (self : NodeId) : String := Record.encodeText (Handshake.mk self)

/-- The frame in which a member sends a body. -/
def frameOf (self : NodeId) (sent : ControlPath × Bytes) : Frame := ⟨self, sent.1.text, sent.2⟩

/-- The line of that frame. -/
def lineOf (self : NodeId) (sent : ControlPath × Bytes) : String :=
  Record.encodeText (frameOf self sent)

/-- The bytes of a link on which a member has sent these bodies, in order. -/
def stream (self : NodeId) (sent : List (ControlPath × Bytes)) : Bytes :=
  wire (greeting self :: sent.map (lineOf self))

/-- Whether a line is within a reader's limit. -/
def fits (maxLength : Nat) (line : String) : Bool := (Bytes.ofText line).length ≤ maxLength

/-- The frames of a link that are within a reader's limit. -/
def framesWithin (maxLength : Nat) (self : NodeId) (sent : List (ControlPath × Bytes)) :
    List Frame :=
  (sent.filter fun s => fits maxLength (lineOf self s)).map (frameOf self)

theorem frameLine_eq (m : Member) (path : ControlPath) (body : Bytes) :
    m.frameLine path body = lineOf m.self (path, body) := rfl

theorem framesWithin_append_cons (maxLength : Nat) (self : NodeId)
    (before after : List (ControlPath × Bytes)) (s : ControlPath × Bytes) :
    framesWithin maxLength self (before ++ s :: after)
      = framesWithin maxLength self before
        ++ (if fits maxLength (lineOf self s) then [frameOf self s] else [])
        ++ framesWithin maxLength self after := by
  unfold framesWithin
  rw [List.filter_append, List.filter_cons, List.map_append]
  split <;> simp

/-! ## Reading a link -/

theorem lines_wire {ls : List String} (h : ∀ l ∈ ls, (0x0A : UInt8) ∉ Bytes.ofText l) :
    lines (wire ls) = ls.map Bytes.ofText := by
  induction ls with
  | nil => rfl
  | cons l ls ih =>
    have hl := h l (List.mem_cons_self ..)
    have hwire : wire (l :: ls) = Bytes.ofText l ++ 0x0A :: wire ls := by
      simp [wire]
    rw [hwire, lines_append_cons hl, ih fun x hx => h x (List.mem_cons_of_mem _ hx), List.map_cons]

section Records

variable {α : Type} [Record α] (maxLength : Nat) (a : α)

/-- A record ends in no carriage return. -/
theorem dropReturn_encode : dropReturn (Record.encode a) = Record.encode a := by
  unfold dropReturn
  refine if_neg fun h => ?_
  exact absurd (Record.le_of_mem_encode a (List.mem_of_getLast? h)) (by decide)

theorem readable?_encode :
    readable? maxLength (Record.encode a)
      = if fits maxLength (Record.encodeText a) then some (Record.encodeText a) else none := by
  have htext : Bytes.toText? (Record.encode a) = some (Record.encodeText a) :=
    Bytes.toText?_ofText _
  unfold readable?
  rw [dropReturn_encode, htext, fits]
  simp only [decide_eq_true_eq]
  rfl

end Records

theorem frameOf?_encode (maxLength : Nat) (f : Frame) :
    frameOf? maxLength (Record.encode f)
      = if fits maxLength (Record.encodeText f) then some f else none := by
  have hdecode : (Record.decode? (Bytes.ofText (Record.encodeText f)) : Option Frame) = some f :=
    Record.decode?_encode f
  rw [frameOf?, readable?_encode]
  split
  · rw [Option.bind_eq_bind, Option.bind_some, hdecode]
  · rfl

theorem opener?_greeting {maxLength : Nat} {self : NodeId} (hself : self.isEmpty = false)
    (hfits : fits maxLength (greeting self) = true) :
    opener? maxLength (Record.encode (Handshake.mk self)) = some self := by
  have hdecode : (Record.decode? (Bytes.ofText (Record.encodeText (Handshake.mk self)))
      : Option Handshake) = some ⟨self⟩ := Record.decode?_encode _
  rw [greeting] at hfits
  rw [opener?, readable?_encode, if_pos hfits, Option.bind_eq_bind, Option.bind_some, hdecode,
    Option.bind_eq_bind, Option.bind_some, hself]
  rfl

theorem lines_stream (self : NodeId) (sent : List (ControlPath × Bytes)) :
    lines (stream self sent)
      = Record.encode (Handshake.mk self) :: sent.map fun s => Record.encode (frameOf self s) := by
  rw [stream, lines_wire, List.map_cons, List.map_map]
  · rfl
  · intro l hl
    rcases List.mem_cons.1 hl with rfl | hl
    · exact Record.lineFeed_not_mem_encode _
    · obtain ⟨s, -, rfl⟩ := List.mem_map.1 hl
      exact Record.lineFeed_not_mem_encode _

theorem filterMap_frameOf? (maxLength : Nat) (self : NodeId) (sent : List (ControlPath × Bytes)) :
    (sent.map fun s => Record.encode (frameOf self s)).filterMap (frameOf? maxLength)
      = framesWithin maxLength self sent := by
  unfold framesWithin
  induction sent with
  | nil => rfl
  | cons s sent ih =>
    rw [List.map_cons, List.filterMap_cons, List.filter_cons, frameOf?_encode, ← lineOf]
    cases hfits : fits maxLength (lineOf self s) with
    | false => rw [if_neg Bool.false_ne_true, if_neg Bool.false_ne_true, ih]
    | true => rw [if_pos rfl, if_pos rfl, List.map_cons, ih]

/-- After a greeting that is accepted, exactly the frames within the limit are read. -/
theorem read_stream {maxLength : Nat} {self : NodeId} (hself : self.isEmpty = false)
    (hgreeting : fits maxLength (greeting self) = true) {sent : List (ControlPath × Bytes)}
    {chunks : List Bytes} (hchunks : chunks.flatten = stream self sent) :
    Connection.read maxLength chunks = framesWithin maxLength self sent := by
  rw [Connection.read, readAll_eq_items, frames_items, hchunks, published, lines_stream]
  dsimp only
  rw [opener?_greeting hself hgreeting, Option.isSome_some, if_pos rfl, filterMap_frameOf?]

/-! ## What is sent and what is read -/

/-- The body in which an ask goes out. -/
def askBody (self : NodeId) (id floodId : MessageId) (message : Message) : Bytes :=
  Record.encode
    (Flood.mk floodId ControlPath.ask.text (Record.encode (Ask.mk self id (Record.encode message))))

theorem waiting_submit {m m' : Member} {id floodId : MessageId} {message : Message}
    (h : m.submit id floodId message = (.done, m')) {q : NodeId}
    (hlive : m.peers.isLive q = true) (hreader : m.peers.hasReader q = true) :
    m'.peers.waiting q
      = m.peers.waiting q ++ [m.frameLine .reliable (askBody m.self id floodId message)] := by
  unfold Member.submit at h
  dsimp only at h
  -- A flood that fails is reported as a failure.
  split at h
  · cases h
  · exact Member.waiting_multicast h hlive hreader

/-- What becomes of a body that a member sends to another one without waiting for room, if the
    reader there has a limit: its line is queued behind the others, and on the link it is read in
    its place if it is within the limit. If it is not, the frames around it are read without it. -/
structure ReadWithin (maxLength : Nat) (m m' : Member) (q : NodeId) (path : ControlPath)
    (body : Bytes) : Prop where
  queued : m'.peers.waiting q = m.peers.waiting q ++ [m.frameLine path body]
  read : ∀ (before after : List (ControlPath × Bytes)) (chunks : List Bytes),
    chunks.flatten = stream m.self (before ++ (path, body) :: after) →
      Connection.read maxLength chunks
        = framesWithin maxLength m.self before
          ++ (if (Bytes.ofText (m.frameLine path body)).length ≤ maxLength
              then [⟨m.self, path.text, body⟩] else [])
          ++ framesWithin maxLength m.self after

theorem read_in_place {maxLength : Nat} {m : Member} (hself : m.self.isEmpty = false)
    (hgreeting : fits maxLength (greeting m.self) = true) {path : ControlPath} {body : Bytes}
    {before after : List (ControlPath × Bytes)} {chunks : List Bytes}
    (hchunks : chunks.flatten = stream m.self (before ++ (path, body) :: after)) :
    Connection.read maxLength chunks
      = framesWithin maxLength m.self before
        ++ (if (Bytes.ofText (m.frameLine path body)).length ≤ maxLength
            then [⟨m.self, path.text, body⟩] else [])
        ++ framesWithin maxLength m.self after := by
  rw [read_stream hself hgreeting hchunks, framesWithin_append_cons, fits, ← frameLine_eq]
  simp only [decide_eq_true_eq]
  rfl

/-- A group of two on one machine, as its first member knows it. -/
def pair : Member :=
  Member.init "a" [⟨"a", .v4 .unspecified 1⟩, ⟨"b", .v4 .unspecified 2⟩] 4

/-- With a limit that admits the greeting, a multicast of an empty body succeeds and its line waits
    for the other member, and nothing is read of it there. -/
theorem long_line_unread :
    pair.self.isEmpty = false ∧ (Bytes.ofText (greeting pair.self)).length ≤ 20 ∧
      (pair.multicast .reliable []).1 = .done ∧
      (pair.multicast .reliable []).2.peers.waiting "b" = [pair.frameLine .reliable []] ∧
      Connection.read 20 [stream pair.self [(.reliable, [])]] = [] := by
  have hself : pair.self.isEmpty = false := by decide +kernel
  have hgreeting : (Bytes.ofText (greeting pair.self)).length ≤ 20 := by decide +kernel
  have hlong : fits 20 (lineOf pair.self (.reliable, [])) = false := by decide +kernel
  refine ⟨hself, hgreeting, by decide +kernel, by decide +kernel, ?_⟩
  rw [read_stream hself (decide_eq_true hgreeting) List.flatten_singleton, framesWithin,
    List.filter_cons, hlong]
  rfl

/-- A multicast, a unicast and a message in total order that succeed without waiting for room leave
    their line in the queue of every live member that has a reader, or of the target, behind what
    waited there; and with a reader whose limit admits the greeting, the frame is read unchanged and
    in its place if, and only if, its line is within the limit. Of a call that waits in between the
    second part holds as well, by `read_in_place`; the first part does not speak of it, since other
    lines may come into the queues in the meantime. -/
theorem accepted_read_within {maxLength : Nat} {m : Member} (hself : m.self.isEmpty = false)
    (hgreeting : (Bytes.ofText (greeting m.self)).length ≤ maxLength) :
    (∀ path body m', m.multicast path body = (.done, m') →
      ∀ q, m.peers.isLive q = true → m.peers.hasReader q = true →
        ReadWithin maxLength m m' q path body) ∧
    (∀ target path body m', m.unicast target path body = (.done, m') →
      ReadWithin maxLength m m' target path body) ∧
    (∀ id floodId message m', m.submit id floodId message = (.done, m') →
      ∀ q, m.peers.isLive q = true → m.peers.hasReader q = true →
        ReadWithin maxLength m m' q .reliable (askBody m.self id floodId message) ∧
        (levels? (Record.encode (Frame.mk m.self ControlPath.reliable.text
          (askBody m.self id floodId message)))).map (·.2.2.2) = some message) := by
  have hfits : fits maxLength (greeting m.self) = true := decide_eq_true hgreeting
  refine ⟨fun path body m' h q hlive hreader => ?_, fun target path body m' h => ?_,
    fun id floodId message m' h q hlive hreader => ⟨?_, ?_⟩⟩
  · exact ⟨Member.waiting_multicast h hlive hreader, fun _ _ _ => read_in_place hself hfits⟩
  · exact ⟨Member.waiting_unicast h, fun _ _ _ => read_in_place hself hfits⟩
  · exact ⟨waiting_submit h hlive hreader, fun _ _ _ => read_in_place hself hfits⟩
  · simp only [levels?, askBody, Record.decode?_encode, Option.bind_eq_bind, Option.bind_some,
      Option.map_some]

/-- A body whose line is within the limit is read, and one behind it whose line is not is passed
    over. -/
theorem accepted_read_within_of_pair :
    (pair.multicast .reliable [1, 2, 3]).2.peers.waiting "b"
        = [pair.frameLine .reliable [1, 2, 3]] ∧
      Connection.read 50 [stream pair.self
          [(.reliable, [1, 2, 3]), (.reliable, [1, 2, 3, 4, 5, 6, 7, 8, 9])]]
        = [⟨"a", "/r-multicast", [1, 2, 3]⟩] := by
  obtain ⟨hmulticast, -⟩ :=
    accepted_read_within (show pair.self.isEmpty = false by decide +kernel)
      (show (Bytes.ofText (greeting pair.self)).length ≤ 50 by decide +kernel)
  have hdone : pair.multicast .reliable [1, 2, 3]
      = (.done, (pair.multicast .reliable [1, 2, 3]).2) :=
    Prod.ext (by decide +kernel) rfl
  have hwithin := hmulticast .reliable [1, 2, 3] _ hdone "b" (by decide +kernel) (by decide +kernel)
  refine ⟨hwithin.queued.trans (by decide +kernel), ?_⟩
  exact (hwithin.read [] [(.reliable, [1, 2, 3, 4, 5, 6, 7, 8, 9])] _
    List.flatten_singleton).trans (by decide +kernel)

end AgreedOrder.Framing
