import Mathlib.Data.List.Basic

/-! # Queued writes of a file

    A file follows an image in memory.  Its writes are queued: a task appends a
    line that is known when it is queued, or writes the whole image as it is
    when the task runs.  `drain` is what the file has after all queued tasks,
    if the image stays as it is. -/

inductive WriteTask (Line : Type) where
  | append (line : Line)
  | rewrite
deriving DecidableEq

namespace WriteTask

variable {Line : Type}

def drain (image : List Line) : List (WriteTask Line) → List Line → List Line
  | [], lines => lines
  | .append line :: rest, lines => drain image rest (lines ++ [line])
  | .rewrite :: rest, _ => drain image rest image

theorem drain_concat_append (image : List Line) (tasks : List (WriteTask Line)) (line : Line)
    (lines : List Line) :
    drain image (tasks ++ [.append line]) lines = drain image tasks lines ++ [line] := by
  induction tasks generalizing lines with
  | nil => rfl
  | cons task rest ih =>
    cases task with
    | append first => exact ih _
    | rewrite => exact ih _

theorem drain_concat_rewrite (image : List Line) (tasks : List (WriteTask Line))
    (lines : List Line) : drain image (tasks ++ [.rewrite]) lines = image := by
  induction tasks generalizing lines with
  | nil => rfl
  | cons task rest ih =>
    cases task with
    | append first => exact ih _
    | rewrite => exact ih _

theorem drain_congr {tasks : List (WriteTask Line)} (h : WriteTask.rewrite ∉ tasks)
    (image image' lines : List Line) : drain image tasks lines = drain image' tasks lines := by
  induction tasks generalizing lines with
  | nil => rfl
  | cons task rest ih =>
    rw [List.mem_cons, not_or] at h
    cases task with
    | append first => exact ih h.2 _
    | rewrite => exact absurd rfl h.1

end WriteTask
