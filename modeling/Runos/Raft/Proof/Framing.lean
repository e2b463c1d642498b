import Mathlib.Data.List.TakeWhile
import Runos.Lib.Segments
import Runos.Raft.Framing

/-!
# What a session hands over

`newline_tokenizer` works through the segments of what it kept and what it is given, whatever the
callback does (`newlineTokenizer_spec`). Over any reads the callback therefore sees the lines of
the whole stream in order, as long as it returns, and what is kept is the rest of the stream
(`processReads_spec`). Neither depends on where the reads were cut (`processReads_framing`).
-/

namespace Raft

open Segments

/-- The messages of a stream: its lines, without a trailing `'\r'`. -/
def messages (stream : List Char) : List (List Char) := (terminated '\n' stream).map stripReturn

variable {σ ε : Type} (callback : σ → List Char → Except ε σ)

theorem messages_append (s t : List Char) :
    messages (s ++ t) = messages s ++ messages (rest '\n' s ++ t) := by
  rw [messages, terminated_append, List.map_append]
  rfl

theorem messages_of_notMem {s : List Char} (h : '\n' ∉ s) : messages s = [] := by
  rw [messages, terminated_of_notMem h]
  rfl

theorem messages_append_cons {s : List Char} (h : '\n' ∉ s) (t : List Char) :
    messages (s ++ '\n' :: t) = stripReturn s :: messages t := by
  rw [messages, terminated_append_cons, terminated_of_notMem h, rest_of_notMem h]
  rfl

/-- A buffer is without a newline, or the first one ends a line. -/
theorem buffer_cases (buffer : List Char) :
    buffer.dropWhile (· ≠ '\n') = [] ∧ '\n' ∉ buffer ∨
      ∃ line more, '\n' ∉ line ∧ buffer = line ++ '\n' :: more ∧
        buffer.takeWhile (· ≠ '\n') = line ∧ buffer.dropWhile (· ≠ '\n') = '\n' :: more := by
  by_cases h : '\n' ∈ buffer
  · obtain ⟨line, more, rfl, hline⟩ := List.eq_append_cons_of_mem h
    have hall : ∀ c ∈ line, decide (c ≠ '\n') = true := fun c hc => by
      simp only [decide_eq_true_eq]
      exact fun heq => hline (heq ▸ hc)
    refine .inr ⟨line, more, hline, rfl, ?_, ?_⟩
    · rw [List.takeWhile_append_of_pos hall]
      simp
    · rw [List.dropWhile_append_of_pos hall]
      simp
  · refine .inl ⟨List.dropWhile_eq_nil_iff.2 fun c hc => ?_, h⟩
    simp only [decide_eq_true_eq]
    exact fun heq => h (heq ▸ hc)

/-- The tokenizer on a state, a buffer and what an earlier read left unfinished. -/
theorem newlineTokenizer_spec (s : σ) (buffer incomplete : List Char) (h : '\n' ∉ incomplete) :
    newlineTokenizer callback s buffer incomplete =
      ((messages (incomplete ++ buffer)).foldlM callback s).map
        (·, rest '\n' (incomplete ++ buffer)) := by
  induction hn : buffer.length using Nat.strongRecOn generalizing s buffer incomplete with
  | _ n ih =>
    rw [newlineTokenizer]
    rcases buffer_cases buffer with ⟨hend, hbuffer⟩ | ⟨line, more, hline, rfl, htake, hdrop⟩
    · have hmem : '\n' ∉ incomplete ++ buffer := by simp [h, hbuffer]
      rw [messages_of_notMem hmem, rest_of_notMem hmem]
      split
      · rfl
      · next hcons => rw [hend] at hcons; cases hcons
    · have hmem : '\n' ∉ incomplete ++ line := by simp [h, hline]
      rw [← List.append_assoc, messages_append_cons hmem, rest_append_cons, List.foldlM_cons]
      split
      · next hnil => rw [hdrop] at hnil; cases hnil
      · next c rest' hcons =>
        rw [hdrop, List.cons.injEq] at hcons
        obtain ⟨-, rfl⟩ := hcons
        have hlt : more.length < n := by
          rw [← hn, List.length_append, List.length_cons]
          omega
        simp only [htake]
        cases callback s (stripReturn (incomplete ++ line)) with
        | error e => rfl
        | ok s' => exact ih more.length hlt s' more [] (by simp) rfl

/-- The reads of a session: the messages of the stream, one after the other, as far as the callback
returns, and the rest of the stream kept. -/
theorem processReads_spec (s : σ) (stream : List Char) (reads : List (List Char)) :
    MessageProcessor.processReads callback s ⟨rest '\n' stream⟩ reads =
      ((messages (rest '\n' stream ++ reads.flatten)).foldlM callback s).map
        (·, ⟨rest '\n' (stream ++ reads.flatten)⟩) := by
  induction reads generalizing s stream with
  | nil =>
    have hmem := notMem_rest (a := '\n') stream
    rw [List.flatten_nil, List.append_nil, List.append_nil, messages_of_notMem hmem]
    rfl
  | cons received reads ih =>
    have hmem := notMem_rest (a := '\n') stream
    rw [MessageProcessor.processReads, MessageProcessor.processRead,
      newlineTokenizer_spec callback s received _ hmem, List.flatten_cons, ← List.append_assoc,
      ← List.append_assoc, messages_append (rest '\n' stream ++ received), List.foldlM_append,
      ← rest_append]
    cases (messages (rest '\n' stream ++ received)).foldlM callback s with
    | error e => rfl
    | ok s' => exact ih s' (stream ++ received)

/-- A callback that keeps what it is given has been given the list. -/
theorem foldlM_keep (given ms : List (List Char)) :
    ms.foldlM (fun given message => (.ok (given ++ [message]) : Except ε _)) given =
      .ok (given ++ ms) := by
  induction ms generalizing given with
  | nil => simp [pure, Except.pure]
  | cons m ms ih => simpa [bind, Except.bind] using ih (given ++ [m])

theorem processReads_init (s : σ) (reads : List (List Char)) :
    MessageProcessor.processReads callback s .init reads =
      ((messages reads.flatten).foldlM callback s).map (·, ⟨rest '\n' reads.flatten⟩) := by
  have hnil : rest '\n' [] = [] := rest_of_notMem (by simp)
  have h := processReads_spec callback s [] reads
  rw [hnil] at h
  exact h

/-- What the callback is given are the lines of the stream, in order, and what is kept is the rest of
the stream. For a callback that may not return, this is so as long as it does. Where the stream was
cut into reads makes no difference. -/
theorem processReads_framing (s : σ) (reads : List (List Char)) :
    MessageProcessor.processReads (ε := ε) (fun given message => .ok (given ++ [message])) [] .init
        reads = .ok (messages reads.flatten, ⟨rest '\n' reads.flatten⟩) ∧
      MessageProcessor.processReads callback s .init reads =
        ((messages reads.flatten).foldlM callback s).map (·, ⟨rest '\n' reads.flatten⟩) ∧
      ∀ reads', reads'.flatten = reads.flatten →
        MessageProcessor.processReads callback s .init reads' =
          MessageProcessor.processReads callback s .init reads := by
  refine ⟨?_, processReads_init callback s reads, fun reads' h => ?_⟩
  · rw [processReads_init, foldlM_keep]
    rfl
  · rw [processReads_init, processReads_init, h]

end Raft
