import Runos.Raft.Wire

/-!
# The text protocol round-trips

What `operator<<` writes of each part of a message, `operator>>` reads back (`reads_entryInfo`,
`reads_header`, `reads_vector`), for parts that fit on the wire: texts that are one word, numbers of
64 bits, vectors for which there is room. So a message is written as one line, and the line reads
as the message (`serialize_roundtrip`).
-/

namespace Raft

open Stream

/-! ## What fits on the wire -/

def EntryInfo.Fits (info : EntryInfo) : Prop := info.index < 2 ^ 64 ∧ info.term < 2 ^ 64

instance : DecidablePred EntryInfo.Fits := fun _ => inferInstanceAs (Decidable (_ ∧ _))

structure MessageHeader.Fits (header : MessageHeader) : Prop where
  peerId : IsWord header.peerId
  destinationId : IsWord header.destinationId
  messageId : header.messageId < 2 ^ 64
  term : header.term < 2 ^ 64
  commit : header.logState.commit.Fits
  uncommit : header.logState.uncommit.Fits

structure Entry.Fits (entry : Entry String) : Prop where
  info : entry.info.Fits
  data : IsWord entry.data

/-- The ids of a client request are not sent. -/
def Message.Fits (room : Room) : Message String → Prop
  | .voteRequest request => request.header.Fits
  | .voteResponse response => response.header.Fits
  | .appendEntriesRequest request => request.header.Fits ∧ request.previousEntry.Fits ∧
      (∀ entry ∈ request.entries, entry.Fits) ∧ request.entries.length ≤ room.entries
  | .appendEntriesResponse response => response.header.Fits
  | .clientRequest request => IsWord request.data ∧ request.clientId = "" ∧ request.messageId = ""

/-! ## Reading back -/

section
variable {info : EntryInfo} {header : MessageHeader} {entry : Entry String}

theorem blanks_entryInfo : Blanks readEntryInfo := (blanks_unsigned 64).bind _

theorem reads_entryInfo (h : info.Fits) : Reads readEntryInfo info.text info := by
  refine (reads_unsigned h.1).bind_blank ((blanks_unsigned 64).bind _) ?_
  exact (reads_unsigned h.2).bind_last (.pure _)

theorem blanks_header : Blanks readHeader := blanks_word.bind _

theorem reads_header (h : header.Fits) : Reads readHeader header.text header := by
  refine (reads_word h.peerId).bind_blank (blanks_word.bind _) ?_
  refine (reads_word h.destinationId).bind_blank ((blanks_unsigned 64).bind _) ?_
  refine (reads_unsigned h.messageId).bind_blank ((blanks_unsigned 64).bind _) ?_
  refine (reads_unsigned h.term).bind_blank (blanks_entryInfo.bind _) ?_
  refine (reads_entryInfo h.commit).bind_blank (blanks_entryInfo.bind _) ?_
  exact (reads_entryInfo h.uncommit).bind_last (.pure _)

theorem blanks_entry : Blanks readEntry := blanks_entryInfo.bind _

theorem reads_entry (h : entry.Fits) : Reads readEntry entry.text entry := by
  refine (reads_entryInfo h.info).bind_blank (blanks_word.bind _) ?_
  exact (reads_word h.data).bind_last (.pure _)

end

section
variable {α : Type} {elem : Extract α} {text : α → List Char} {vec : List α}

theorem ends_flatMap (text : α → List Char) (vec : List α) :
    Ends (vec.flatMap fun x => ' ' :: text x) := by
  cases vec with
  | nil => exact .nil
  | cons x vec => exact .blank rfl _

theorem reads_elems (hb : Blanks elem) (h : ∀ x ∈ vec, Reads elem (text x) x) :
    Reads (readElems elem vec.length) (vec.flatMap fun x => ' ' :: text x) vec := by
  induction vec with
  | nil => exact .pure []
  | cons x vec ih =>
    have hx := (h x List.mem_cons_self).blank hb (c := ' ') rfl
    have hvec := ih fun y hy => h y (List.mem_cons_of_mem _ hy)
    exact hx.bind (ends_flatMap text vec) (hvec.bind_last (.pure (x :: vec)))

theorem reads_vector (hb : Blanks elem) {room : Nat} (hroom : vec.length ≤ room)
    (hlt : room < 2 ^ 64) (h : ∀ x ∈ vec, Reads elem (text x) x) :
    Reads (readVector room elem)
      (showNat vec.length ++ vec.flatMap fun x => ' ' :: text x) vec := by
  refine (reads_unsigned (by omega)).bind (ends_flatMap text vec) ?_
  rw [if_neg (by omega)]
  exact reads_elems hb h

/-- The blanks after the elements, counted before them. -/
theorem vectorText_eq (text : α → List Char) (vec : List α) :
    vectorText text vec = (showNat vec.length ++ vec.flatMap fun x => ' ' :: text x) ++ [' '] := by
  have hblanks : ' ' :: (vec.flatMap fun x => text x ++ [' ']) =
      (vec.flatMap fun x => ' ' :: text x) ++ [' '] := by
    induction vec with
    | nil => rfl
    | cons x vec ih => simp [ih]
  rw [vectorText, hblanks, List.append_assoc]

end

/-! ## Messages -/

/-- The word a message starts with. -/
def Message.name : Message String → String
  | .voteRequest _ => "VoteRequest"
  | .voteResponse _ => "VoteResponse"
  | .appendEntriesRequest _ => "AppendEntriesRequest"
  | .appendEntriesResponse _ => "AppendEntriesResponse"
  | .clientRequest _ => "ClientRequest"

/-- The text between the name and the last blank. -/
def Message.body : Message String → List Char
  | .voteRequest request => request.header.text
  | .voteResponse response => response.header.text ++ ' ' :: showBool response.voteGranted
  | .appendEntriesRequest request => request.header.text ++ ' ' :: (request.previousEntry.text ++
      ' ' :: (showNat request.entries.length ++ request.entries.flatMap fun e => ' ' :: e.text))
  | .appendEntriesResponse response => response.header.text ++ ' ' :: showBool response.success
  | .clientRequest request => request.data.toList

theorem Message.text_eq (m : Message String) :
    m.text = m.name.toList ++ ' ' :: m.body ++ [' '] ++ ['\n'] := by
  have hend : " \n".toList = [' ', '\n'] := by decide
  -- the texts are given in full: unfolding them by name evaluates their words
  cases m with
  | voteRequest request =>
    show "VoteRequest ".toList ++ request.header.text ++ " \n".toList = _
    have hname : "VoteRequest ".toList = "VoteRequest".toList ++ [' '] := by decide +kernel
    simp only [Message.name, Message.body, hname, hend, List.append_assoc, List.cons_append,
      List.nil_append]
  | voteResponse response =>
    show "VoteResponse ".toList ++ response.header.text ++ ' ' :: showBool response.voteGranted ++
      " \n".toList = _
    have hname : "VoteResponse ".toList = "VoteResponse".toList ++ [' '] := by decide +kernel
    simp only [Message.name, Message.body, hname, hend, List.append_assoc, List.cons_append,
      List.nil_append]
  | appendEntriesRequest request =>
    show "AppendEntriesRequest ".toList ++ request.header.text ++ ' ' ::
      request.previousEntry.text ++ ' ' :: vectorText Entry.text request.entries ++ ['\n'] = _
    have hname : "AppendEntriesRequest ".toList = "AppendEntriesRequest".toList ++ [' '] := by
      decide +kernel
    simp only [Message.name, Message.body, hname, vectorText_eq, List.append_assoc,
      List.cons_append, List.nil_append]
  | appendEntriesResponse response =>
    show "AppendEntriesResponse ".toList ++ response.header.text ++ ' ' ::
      showBool response.success ++ " \n".toList = _
    have hname : "AppendEntriesResponse ".toList = "AppendEntriesResponse".toList ++ [' '] := by
      decide +kernel
    simp only [Message.name, Message.body, hname, hend, List.append_assoc, List.cons_append,
      List.nil_append]
  | clientRequest request =>
    show "ClientRequest ".toList ++ request.data.toList ++ " \n".toList = _
    have hname : "ClientRequest ".toList = "ClientRequest".toList ++ [' '] := by decide +kernel
    simp only [Message.name, Message.body, hname, hend, List.append_assoc, List.cons_append,
      List.nil_append]

theorem isWord_name (m : Message String) : IsWord m.name := by
  have hnames : ∀ name ∈ ["VoteRequest", "VoteResponse", "AppendEntriesRequest",
      "AppendEntriesResponse", "ClientRequest"], IsWord name := by decide +kernel
  cases m with
  | voteRequest request => exact hnames _ (by simp [Message.name])
  | voteResponse response => exact hnames _ (by simp [Message.name])
  | appendEntriesRequest request => exact hnames _ (by simp [Message.name])
  | appendEntriesResponse response => exact hnames _ (by simp [Message.name])
  | clientRequest request => exact hnames _ (by simp [Message.name])

section
variable {room : Room} {m : Message String}

theorem blanks_body (room : Room) (m : Message String) : Blanks (readBody room m.name) := by
  cases m with
  | voteRequest request => exact (blanks_header.bind _).bind _
  | voteResponse response => exact (blanks_header.bind _).bind _
  | appendEntriesRequest request => exact (blanks_header.bind _).bind _
  | appendEntriesResponse response => exact (blanks_header.bind _).bind _
  | clientRequest request => exact (blanks_word.bind _).bind _

theorem reads_body (h : m.Fits room) : Reads (readBody room m.name) m.body (some (.rpc m)) := by
  cases m with
  | voteRequest request =>
    refine Reads.bind_last (a := request) ?_ (.pure _)
    exact (reads_header h).bind_last (.pure _)
  | voteResponse response =>
    refine Reads.bind_last (a := response) ?_ (.pure _)
    refine (reads_header h).bind_blank (blanks_bool.bind _) ?_
    exact (reads_bool _).bind_last (.pure _)
  | appendEntriesRequest request =>
    obtain ⟨hheader, hprev, hentries, hroom⟩ := h
    refine Reads.bind_last (a := request) ?_ (.pure _)
    refine (reads_header hheader).bind_blank (blanks_entryInfo.bind _) ?_
    refine (reads_entryInfo hprev).bind_blank (((blanks_unsigned 64).bind _).bind _) ?_
    refine Reads.bind_last ?_ (.pure _)
    exact reads_vector blanks_entry hroom room.entries_lt fun e he => reads_entry (hentries e he)
  | appendEntriesResponse response =>
    refine Reads.bind_last (a := response) ?_ (.pure _)
    refine (reads_header h).bind_blank (blanks_bool.bind _) ?_
    exact (reads_bool _).bind_last (.pure _)
  | clientRequest request =>
    obtain ⟨clientId, messageId, data⟩ := request
    obtain ⟨hdata, rfl, rfl⟩ := h
    refine Reads.bind_last (a := ⟨"", "", data⟩) ?_ (.pure _)
    exact (reads_word hdata).bind_last (.pure _)

end

/-! ## One line -/

section
variable {info : EntryInfo} {header : MessageHeader} {entry : Entry String}

theorem newline_not_mem_word {w : String} (h : IsWord w) : '\n' ∉ w.toList := by
  intro hm
  exact absurd (h.2 _ hm) (by decide)

@[simp] theorem newline_not_mem_showNat (n : Nat) : '\n' ∉ showNat n := by
  intro hm
  exact absurd (isDigit_of_mem_showNat hm) (by decide)

@[simp] theorem newline_not_mem_showBool (b : Bool) : '\n' ∉ showBool b := by
  cases b <;> decide

@[simp] theorem newline_not_mem_entryInfo (info : EntryInfo) : '\n' ∉ info.text := by
  simp [EntryInfo.text]

theorem newline_not_mem_header (h : header.Fits) : '\n' ∉ header.text := by
  simp [MessageHeader.text, newline_not_mem_word h.peerId, newline_not_mem_word h.destinationId]

theorem newline_not_mem_entry (h : entry.Fits) : '\n' ∉ entry.text := by
  simp [Entry.text, newline_not_mem_word h.data]

theorem newline_not_mem_body {room : Room} {m : Message String} (h : m.Fits room) :
    '\n' ∉ m.body := by
  cases m with
  | voteRequest request => exact newline_not_mem_header h
  | voteResponse response => simp [Message.body, newline_not_mem_header h]
  | appendEntriesRequest request =>
    obtain ⟨hheader, -, hentries, -⟩ := h
    simp only [Message.body, List.mem_append, List.mem_cons, List.mem_flatMap,
      newline_not_mem_header hheader, newline_not_mem_entryInfo, newline_not_mem_showNat,
      false_or, not_or, not_exists, not_and]
    refine ⟨by decide, by decide, fun e he => ?_⟩
    exact ⟨by decide, newline_not_mem_entry (hentries e he)⟩
  | appendEntriesResponse response => simp [Message.body, newline_not_mem_header h]
  | clientRequest request => exact newline_not_mem_word h.1

end

/-- **The text protocol round-trips**: a message that fits on the wire is written as one line, and
the line reads as that message. -/
theorem serialize_roundtrip (room : Room) (m : Message String) (h : m.Fits room) :
    ∃ line, (serialize m).toList = line ++ ['\n'] ∧ '\n' ∉ line ∧
      ∃ rest, readServerMessage room line = .ok (some (.rpc m), rest) := by
  refine ⟨m.name.toList ++ ' ' :: m.body ++ [' '], ?_, ?_, [' '], ?_⟩
  · rw [serialize, String.toList_ofList]
    exact m.text_eq
  · simp [newline_not_mem_word (isWord_name m), newline_not_mem_body h]
  · have hread := (reads_word (isWord_name m)).bind_blank (blanks_body room m) (reads_body h)
    exact hread [' '] (.blank rfl [])

/-- Room for what a line of 64 KiB can hold. -/
def lineRoom : Room := ⟨65536, 65536, by decide, by decide⟩

/-- A request with an entry. -/
def oneEntryRequest : AppendEntriesRequest String where
  header := ⟨"n1", "n2", 7, 3, ⟨⟨4, 2⟩, ⟨5, 3⟩⟩⟩
  previousEntry := ⟨4, 2⟩
  entries := [⟨⟨5, 3⟩, "n1,1,linkBroken,1,1,2,1"⟩]

theorem serialize_roundtrip_oneEntry :
    serialize (.appendEntriesRequest oneEntryRequest) =
        "AppendEntriesRequest n1 n2 7 3 4 2 5 3 4 2 1 5 3 n1,1,linkBroken,1,1,2,1 \n" ∧
      ∃ line, (serialize (.appendEntriesRequest oneEntryRequest)).toList = line ++ ['\n'] ∧
        '\n' ∉ line ∧ ∃ rest, readServerMessage lineRoom line =
          .ok (some (.rpc (.appendEntriesRequest oneEntryRequest)), rest) := by
  refine ⟨by decide +kernel, ?_⟩
  refine serialize_roundtrip lineRoom _ ⟨?_, by decide, ?_, by decide⟩
  · exact ⟨by decide, by decide, by decide, by decide, by decide, by decide⟩
  · intro e he
    obtain rfl := List.mem_singleton.1 he
    exact ⟨by decide, by decide⟩

end Raft
