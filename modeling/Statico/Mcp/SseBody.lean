/-
# The body of a streamed response

hyper polls the body of a response for its frames. The body of a stream keeps
the notifications with an index, and the final event until it was taken. What
it has left is the notifications from the index on and the final event, or
nothing once that was taken, and by then the index is at the end (`Left`). So
the frames come once and in order, and the stream is at its end when all of
them came (`stream_delivered`).

Key definitions: `McpBody`, `pollFrame`, `isEndStream`, `Left`.
Key theorems: `drains`, `Left.ended_iff`, `stream_delivered`.
-/
import Statico.Lib.Source
import Statico.Mcp.SseMeter

namespace Statico
namespace Mcp

/-- The `Full` of `http_body_util`, as a body. -/
structure FullBody (F : Type) where
  pollFrame : F → Option Bytes × F
  isEndStream : F → Bool

inductive McpBody (F : Type)
  | full (body : F)
  | sse (notifications : List Bytes) (idx : ℕ) (finalEvent : Option Bytes)

section Body

variable {F : Type} (full : FullBody F)

/-- `poll_frame`: the data of the next frame. -/
def pollFrame : McpBody F → Option Bytes × McpBody F
  | .full body => ((full.pollFrame body).1, .full (full.pollFrame body).2)
  | .sse notifications idx finalEvent =>
    if h : idx < notifications.length then
      (some notifications[idx], .sse notifications (idx + 1) finalEvent)
    else
      match finalEvent with
      | some last => (some last, .sse notifications idx none)
      | none => (none, .sse notifications idx none)

/-- `is_end_stream` -/
def isEndStream : McpBody F → Bool
  | .full body => full.isEndStream body
  | .sse _ _ finalEvent => finalEvent.isNone

/-- The body of the answer to a streamed call. -/
def sseBody (notifications : List Bytes) (finalEvent : Bytes) : McpBody F :=
  .sse notifications 0 (some finalEvent)

/-- What is left of a stream. The final event is taken only after the
notifications. -/
inductive Left (notifications : List Bytes) (finalEvent : Bytes) : McpBody F → List Bytes → Prop
  | some {idx : ℕ} : idx ≤ notifications.length →
      Left notifications finalEvent (.sse notifications idx (some finalEvent))
        (notifications.drop idx ++ [finalEvent])
  | none : Left notifications finalEvent (.sse notifications notifications.length none) []

variable {notifications : List Bytes} {finalEvent : Bytes}

theorem Left.start : Left notifications finalEvent (sseBody (F := F) notifications finalEvent)
    (notifications ++ [finalEvent]) := Left.some (Nat.zero_le _)

/-- A poll delivers the first frame that is left. -/
theorem drains : Drains (pollFrame full) (Left notifications finalEvent) where
  head := by
    intro body frames h
    cases h with
    | @some idx hle =>
      rcases Nat.eq_or_lt_of_le hle with rfl | hlt
      · rw [pollFrame, dif_neg (Nat.lt_irrefl _), List.drop_length]
        rfl
      · rw [pollFrame, dif_pos hlt, List.drop_eq_getElem_cons hlt]
        rfl
    | none =>
      rw [pollFrame, dif_neg (Nat.lt_irrefl _)]
      rfl
  tail := by
    intro body frames h
    cases h with
    | @some idx hle =>
      rcases Nat.eq_or_lt_of_le hle with rfl | hlt
      · rw [pollFrame, dif_neg (Nat.lt_irrefl _), List.drop_length]
        exact Left.none
      · rw [pollFrame, dif_pos hlt, List.drop_eq_getElem_cons hlt]
        exact Left.some hlt
    | none =>
      rw [pollFrame, dif_neg (Nat.lt_irrefl _)]
      exact Left.none

/-- The stream is at its end exactly if nothing is left. -/
theorem Left.ended_iff {body : McpBody F} {frames : List Bytes}
    (h : Left notifications finalEvent body frames) : isEndStream full body = true ↔ frames = [] := by
  cases h with
  | some _ => simp [isEndStream]
  | none => simp [isEndStream]

theorem Left.idx_le {body : McpBody F} {frames : List Bytes} (h : Left notifications finalEvent body frames) :
    ∃ idx last, body = .sse notifications idx last ∧ idx ≤ notifications.length := by
  cases h with
  | some hle => exact ⟨_, _, rfl, hle⟩
  | none => exact ⟨_, _, rfl, le_rfl⟩

end Body

/-- The polls of a stream give the notifications, the final event, and nothing
ever after; after any number of them the index is in range, and the stream is
at its end exactly if all frames were delivered, which joined are the text in
the log. -/
theorem stream_delivered {F : Type} (full : FullBody F) (notifications : List Bytes) (finalEvent : Bytes)
    (n : ℕ) :
    (polls (pollFrame full) n (sseBody notifications finalEvent)).1 =
      ((notifications ++ [finalEvent]).map some ++ List.replicate n none).take n ∧
    (∃ idx last, (polls (pollFrame full) n (sseBody notifications finalEvent)).2 =
      .sse notifications idx last ∧ idx ≤ notifications.length) ∧
    (isEndStream full (polls (pollFrame full) n (sseBody notifications finalEvent)).2 = true ↔
      (polls (pollFrame full) n (sseBody notifications finalEvent)).1.reduceOption =
        notifications ++ [finalEvent]) ∧
    (isEndStream full (polls (pollFrame full) n (sseBody notifications finalEvent)).2 = true →
      (polls (pollFrame full) n (sseBody notifications finalEvent)).1.reduceOption.flatten =
        concatSseForLog notifications finalEvent false) := by
  have hstart : Left notifications finalEvent (sseBody (F := F) notifications finalEvent)
      (notifications ++ [finalEvent]) := Left.start
  have hleft := (drains full).left n hstart
  have hdelivered := (drains full).delivered n hstart
  have hended : isEndStream full (polls (pollFrame full) n (sseBody notifications finalEvent)).2 = true ↔
      (polls (pollFrame full) n (sseBody notifications finalEvent)).1.reduceOption =
        notifications ++ [finalEvent] := by
    rw [hleft.ended_iff full, hdelivered, List.take_eq_self_iff, List.drop_eq_nil_iff]
  refine ⟨(drains full).results n hstart, hleft.idx_le, hended, fun h => ?_⟩
  rw [hended.mp h, concatSseForLog_plain]

end Mcp
end Statico
