/-
# Event streams

How a client reads a stream of server-sent events: lines end in LF, CR or
CRLF, a line is a field, and an empty line ends an event. `parse` lists the
events with their type and data; the fields that do not touch these (`id`,
`retry`, comments) are read over.

`frame` is the usual way to send one piece of data. A client gets it back
exactly if no line ends in it (`frame_iff`): a line break in the data starts
a new line, and what a field's name takes of that line is lost
(`length_events_le`).

Key definitions: `lines`, `parse`, `frame`.
Key theorems: `events_frame`, `events_frames`, `frame_iff`.
-/
import Statico.Lib.Ascii

namespace Statico
namespace EventStream

/-! ### Lines -/

/-- Bytes in front of the first line. -/
def prepend (u : Bytes) : List Bytes → List Bytes
  | [] => [u]
  | l :: ls => (u ++ l) :: ls

/-- The lines of a stream. The last one has not ended. -/
def lines : Bytes → List Bytes
  | [] => [[]]
  | [c] => if isBreak c then [[], []] else [[c]]
  | c :: d :: s =>
    if c = byte '\r' ∧ d = byte '\n' then [] :: lines s
    else if isBreak c then [] :: lines (d :: s)
    else prepend [c] (lines (d :: s))

theorem prepend_ne_nil (u : Bytes) (ls : List Bytes) : prepend u ls ≠ [] := by
  cases ls <;> exact List.cons_ne_nil _ _

theorem lines_ne_nil : ∀ s : Bytes, lines s ≠ []
  | [] => List.cons_ne_nil _ _
  | [c] => by
    rw [lines]
    split_ifs <;> exact List.cons_ne_nil _ _
  | c :: d :: s => by
    rw [lines]
    split_ifs
    · exact List.cons_ne_nil _ _
    · exact List.cons_ne_nil _ _
    · exact prepend_ne_nil _ _

theorem lines_cons {c : UInt8} (hc : isBreak c = false) (s : Bytes) :
    lines (c :: s) = prepend [c] (lines s) := by
  cases s with
  | nil => simp [lines, hc, prepend]
  | cons d s =>
    have hr : ¬ (c = byte '\r' ∧ d = byte '\n') := by
      rintro ⟨rfl, -⟩
      exact absurd hc (by decide)
    rw [lines, if_neg hr, hc]
    rfl

theorem lines_newline (s : Bytes) : lines (byte '\n' :: s) = [] :: lines s := by
  cases s with
  | nil => rfl
  | cons d s =>
    have hr : ¬ (byte '\n' = byte '\r' ∧ d = byte '\n') := fun h => absurd h.1 (by decide)
    rw [lines, if_neg hr, if_pos (by decide)]

theorem prepend_prepend (u v : Bytes) (ls : List Bytes) :
    prepend u (prepend v ls) = prepend (u ++ v) ls := by
  cases ls <;> simp [prepend]

/-- Bytes without a line break lengthen the first line. -/
theorem lines_calm : ∀ {u : Bytes}, Calm u → ∀ s : Bytes, lines (u ++ s) = prepend u (lines s)
  | [], _, s => by
    cases hl : lines s with
    | nil => exact absurd hl (lines_ne_nil s)
    | cons l ls => rw [List.nil_append, hl]; rfl
  | c :: u, h, s => by
    obtain ⟨hc, hu⟩ := calm_cons.mp h
    rw [List.cons_append, lines_cons hc, lines_calm hu, prepend_prepend]
    rfl

/-- One line, and the lines after it. -/
theorem lines_line {u : Bytes} (hu : Calm u) (s : Bytes) :
    lines (u ++ byte '\n' :: s) = u :: lines s := by
  rw [lines_calm hu, lines_newline, prepend, List.append_nil]

/-- Texts without a line break, each ended by one, are the lines. -/
theorem lines_ended : ∀ {ls : List Bytes}, (∀ l ∈ ls, Calm l) →
    lines (ls.map (· ++ [byte '\n'])).flatten = ls ++ [[]]
  | [], _ => rfl
  | l :: ls, h => by
    have hl : Calm l := h l List.mem_cons_self
    have hls : ∀ l ∈ ls, Calm l := fun l hl => h l (List.mem_cons_of_mem _ hl)
    rw [List.map_cons, List.flatten_cons, List.append_assoc, List.singleton_append, lines_line hl,
      lines_ended hls, List.cons_append]

/-- The lines hold all bytes but those that end lines. -/
theorem flatten_lines : ∀ s : Bytes, (lines s).flatten = s.filter (!isBreak ·)
  | [] => rfl
  | [c] => by
    rw [lines]
    cases hc : isBreak c <;> simp [hc]
  | c :: d :: s => by
    by_cases h1 : c = byte '\r' ∧ d = byte '\n'
    · have hc : isBreak c = true := by rw [h1.1]; rfl
      have hd : isBreak d = true := by rw [h1.2]; rfl
      rw [lines, if_pos h1, List.flatten_cons, List.nil_append, flatten_lines s]
      simp [hc, hd]
    · rw [lines, if_neg h1]
      cases hc : isBreak c with
      | true =>
        rw [if_pos rfl, List.flatten_cons, List.nil_append, flatten_lines (d :: s)]
        simp [hc]
      | false =>
        have ih := flatten_lines (d :: s)
        rw [if_neg Bool.false_ne_true]
        cases hl : lines (d :: s) with
        | nil => exact absurd hl (lines_ne_nil _)
        | cons l ls =>
          rw [hl, List.flatten_cons] at ih
          rw [prepend, List.flatten_cons, List.append_assoc, ih]
          simp [hc]

/-! ### Events -/

structure Event where
  type : Bytes
  data : Bytes
  deriving DecidableEq, Repr

/-- The type and data of an event that has not ended. -/
structure Pending where
  type : Bytes
  data : Bytes

def fresh : Pending := ⟨[], []⟩

/-- What a line says after the colon that ends its name, less one space. -/
def value (line : Bytes) : Bytes :=
  match line.dropWhile (· ≠ byte ':') with
  | _ :: c :: v => if c = byte ' ' then v else c :: v
  | _ => []

def name (line : Bytes) : Bytes := line.takeWhile (· ≠ byte ':')

/-- A field adds to the event. -/
def field (e : Pending) (line : Bytes) : Pending :=
  if name line = ascii "event" then { e with type := value line }
  else if name line = ascii "data" then { e with data := e.data ++ (value line ++ [byte '\n']) }
  else e

/-- The events that end among the lines. One without data is dropped. -/
def events (e : Pending) : List Bytes → List Event
  | [] => []
  | [] :: ls =>
    if e.data = [] then events fresh ls
    else ⟨if e.type = [] then ascii "message" else e.type, e.data.dropLast⟩ :: events fresh ls
  | line :: ls => events (field e line) ls

/-- A stream may start with a byte order mark. -/
def dropMark (s : Bytes) : Bytes := if [0xEF, 0xBB, 0xBF] <+: s then s.drop 3 else s

/-- The events of a stream. -/
def parse (s : Bytes) : List Event := events fresh (lines (dropMark s)).dropLast

/-! ### Framing -/

/-- A piece of data as an event of its own. -/
def frame (data : Bytes) : Bytes := ascii "event: message\ndata: " ++ data ++ ascii "\n\n"

theorem frame_append (data s : Bytes) : frame data ++ s =
    ascii "event: message" ++ byte '\n' :: (ascii "data: " ++ (data ++ byte '\n' :: byte '\n' :: s)) := by
  simp only [frame, List.append_assoc]
  rfl

theorem field_event (e : Pending) :
    field e (ascii "event: message") = { e with type := ascii "message" } := by
  rw [field, if_pos (by decide)]
  rfl

theorem field_data (e : Pending) (v : Bytes) :
    field e (ascii "data: " ++ v) = { e with data := e.data ++ (v ++ [byte '\n']) } := by
  rw [field, if_neg, if_pos]
  · rfl
  · rfl
  · exact fun h => absurd h (by rw [show name (ascii "data: " ++ v) = ascii "data" from rfl]; decide)

theorem events_line {line : Bytes} (h : line ≠ []) (e : Pending) (ls : List Bytes) :
    events e (line :: ls) = events (field e line) ls := by
  cases line with
  | nil => exact absurd rfl h
  | cons c l => rfl

/-- An event whose data has no line break is read back, and nothing is left of
it. -/
theorem events_frame {data : Bytes} (h : Calm data) (s : Bytes) :
    events fresh (lines (frame data ++ s)).dropLast =
      ⟨ascii "message", data⟩ :: events fresh (lines s).dropLast := by
  have hl : lines (frame data ++ s) =
      ascii "event: message" :: (ascii "data: " ++ data) :: [] :: lines s := by
    rw [frame_append, lines_line (calm_of_all (by decide)), ← List.append_assoc,
      lines_line (calm_append.mpr ⟨calm_of_all (by decide), h⟩), lines_newline]
  have hne : ascii "data: " ++ data ≠ [] := fun e => absurd (List.append_eq_nil_iff.mp e).1 (by decide)
  rw [hl, List.dropLast_cons_of_ne_nil (List.cons_ne_nil _ _),
    List.dropLast_cons_of_ne_nil (List.cons_ne_nil _ _),
    List.dropLast_cons_of_ne_nil (lines_ne_nil s), events_line (by decide), field_event,
    events_line hne, field_data, events]
  simp [fresh, show ascii "message" ≠ [] by decide]

/-- So are several of them. -/
theorem events_frames : ∀ {ds : List Bytes}, (∀ d ∈ ds, Calm d) → ∀ s : Bytes,
    events fresh (lines ((ds.map frame).flatten ++ s)).dropLast =
      ds.map (⟨ascii "message", ·⟩) ++ events fresh (lines s).dropLast
  | [], _, _ => rfl
  | d :: ds, h, s => by
    rw [List.map_cons, List.flatten_cons, List.append_assoc, events_frame (h d List.mem_cons_self),
      events_frames (fun d hd => h d (List.mem_cons_of_mem _ hd)) s]
    rfl

/-! ### What line breaks lose -/

/-- How much a line adds to the data. -/
def yield (line : Bytes) : ℕ := if name line = ascii "data" then (value line).length + 1 else 0

theorem length_value (line : Bytes) : (value line).length + (name line).length ≤ line.length := by
  have hl := congrArg List.length
    (List.takeWhile_append_dropWhile (p := fun b => decide (b ≠ byte ':')) (l := line))
  rw [List.length_append] at hl
  unfold value name
  generalize List.dropWhile (fun b => decide (b ≠ byte ':')) line = rest at hl ⊢
  match rest with
  | [] => exact le_trans (by simp) (Nat.le_of_eq hl)
  | [_] => exact le_trans (by simp) (Nat.le_of_eq hl)
  | _ :: c :: v =>
    simp only [List.length_cons] at hl
    by_cases hc : c = byte ' '
    · simp only [hc, if_true]
      omega
    · simp only [hc, if_false, List.length_cons]
      omega

theorem yield_le (line : Bytes) : yield line ≤ line.length := by
  have h := length_value line
  unfold yield
  split_ifs with hn
  · rw [hn, show (ascii "data").length = 4 by decide] at h
    omega
  · exact Nat.zero_le _

theorem length_field (e : Pending) (line : Bytes) :
    (field e line).data.length = e.data.length + yield line := by
  unfold field yield
  by_cases h1 : name line = ascii "event"
  · rw [if_pos h1, if_neg (by rw [h1]; decide)]
    rfl
  · rw [if_neg h1]
    split_ifs
    · simp only [List.length_append, List.length_cons, List.length_nil]
    · rfl

/-- The events carry no more data than the lines yield. -/
theorem length_events_le : ∀ (ls : List Bytes) (e : Pending),
    ((events e ls).map fun x => x.data.length + 1).sum ≤ e.data.length + (ls.map yield).sum
  | [], e => Nat.zero_le _
  | [] :: ls, e => by
    have ih := length_events_le ls fresh
    simp only [events, List.map_cons, List.sum_cons, show yield [] = 0 by decide]
    simp only [fresh, List.length_nil] at ih
    by_cases he : e.data = []
    · rw [if_pos he]
      simp only [fresh]
      omega
    · have := List.length_pos_iff.mpr he
      rw [if_neg he]
      simp only [List.map_cons, List.sum_cons, List.length_dropLast, fresh]
      omega
  | (c :: l) :: ls, e => by
    have ih := length_events_le ls (field e (c :: l))
    rw [length_field] at ih
    simp only [events, List.map_cons, List.sum_cons]
    omega

theorem sum_yield_le : ∀ ls : List Bytes, (ls.map yield).sum ≤ ls.flatten.length
  | [] => le_rfl
  | l :: ls => by
    have := yield_le l
    have := sum_yield_le ls
    simp only [List.map_cons, List.sum_cons, List.flatten_cons, List.length_append]
    omega

theorem sum_dropLast_le (ls : List Bytes) : (ls.dropLast.map yield).sum ≤ (ls.map yield).sum := by
  rcases List.eq_nil_or_concat ls with rfl | ⟨init, last, rfl⟩
  · exact le_rfl
  · simp

/-- If the events of a frame are one event with all of the data, no line ended
in the data. -/
theorem calm_of_frame {data : Bytes} {e : Event}
    (h : events fresh (lines (frame data)).dropLast = [e]) (he : e.data = data) : Calm data := by
  have hl : lines (frame data) =
      ascii "event: message" :: prepend (ascii "data: ") (lines (data ++ ascii "\n\n")) := by
    rw [← List.append_nil (frame data), frame_append, lines_line (calm_of_all (by decide)),
      lines_calm (calm_of_all (by decide))]
    rfl
  have hle := length_events_le (lines (frame data)).dropLast fresh
  have hfl := flatten_lines (data ++ ascii "\n\n")
  rw [h, List.map_singleton, List.sum_singleton, he] at hle
  replace hle := le_trans hle (Nat.add_le_add_left (sum_dropLast_le _) _)
  rw [hl] at hle
  cases hd : lines (data ++ ascii "\n\n") with
  | nil => exact absurd hd (lines_ne_nil _)
  | cons l ls =>
    rw [hd] at hle hfl
    have hy : yield (ascii "data: " ++ l) = l.length + 1 := by
      rw [yield, show name (ascii "data: " ++ l) = ascii "data" from rfl, if_pos rfl]
      rfl
    have hs := sum_yield_le ls
    have hf := congrArg List.length hfl
    rw [List.filter_append, show (ascii "\n\n").filter (!isBreak ·) = [] by decide, List.append_nil,
      List.flatten_cons, List.length_append] at hf
    simp only [prepend, List.map_cons, List.sum_cons, fresh, List.length_nil,
      hy, show yield (ascii "event: message") = 0 by decide] at hle
    have hge : data.length ≤ (data.filter (!isBreak ·)).length := by omega
    have hall := List.length_filter_eq_length_iff.mp (le_antisymm (List.length_filter_le _ _) hge)
    exact fun b hb => by simpa using hall b hb

/-- A frame is read back as one event with its data exactly if no line ends in
the data. -/
theorem frame_iff (data : Bytes) :
    (∃ e : Event, events fresh (lines (frame data)).dropLast = [e] ∧ e.type = ascii "message" ∧
      e.data = data) ↔ Calm data := by
  refine ⟨fun ⟨e, h, _, he⟩ => calm_of_frame h he, fun h => ⟨⟨ascii "message", data⟩, ?_, rfl, rfl⟩⟩
  rw [← List.append_nil (frame data), events_frame h]
  rfl

end EventStream
end Statico
