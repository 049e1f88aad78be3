import LogPipeline.Arg
import Mathlib.Data.List.Induction

/-!
# Messages

The arguments of a call are joined into its message. A list of them may be cut at any place:
its message is that of the first part, then that of the second, with a space between the two
exactly if the arguments that meet there are both no text (`join_append_spaced`). This is seen
on the arguments and not on what is written, so that a text that is empty still keeps its
neighbours together. The law leaves no choice in how to join (`eq_join`), and a writer keeps to
it that goes from one argument to the next and remembers of those before only whether the last
one was text (`foldl_write`).
-/

namespace LogPipeline.Arg

theorem isText_iff {a : Arg} : a.isText = true ↔ (∃ s, a = .text s) ∨ ∃ s, a = .block s := by
  cases a <;> simp [isText]

/-- What stands between the messages of two lists of arguments. -/
def gap (as bs : List Arg) : String :=
  match as.getLast?, bs.head? with
  | some a, some b => a.separator b
  | _, _ => ""

@[simp] theorem gap_nil_left (bs : List Arg) : gap [] bs = "" := rfl

@[simp] theorem gap_nil_right (as : List Arg) : gap as [] = "" := by
  unfold gap
  split
  · next hb => cases hb
  · rfl

theorem gap_cons_cons (a b : Arg) (as bs : List Arg) :
    gap (a :: b :: as) bs = gap (b :: as) bs := by
  simp [gap, List.getLast?_cons_cons]

/-- A space stands between two arguments of which neither is text. -/
theorem gap_eq_ite (as bs : List Arg) :
    gap as bs = if as ≠ [] ∧ bs ≠ [] ∧ (∀ a ∈ as.getLast?, a.isText = false) ∧
      ∀ b ∈ bs.head?, b.isText = false then " " else "" := by
  cases hlast : as.getLast? with
  | none =>
    obtain rfl := List.getLast?_eq_none_iff.1 hlast
    simp
  | some a =>
    have has : as ≠ [] := by
      rintro rfl
      cases hlast
    cases bs with
    | nil => simp
    | cons b bs =>
      cases ha : a.isText <;> cases hb : b.isText <;> simp [gap, hlast, separator, has, ha, hb]

/-- After a first argument, too, a list may be cut at any place. -/
theorem joinAfter_append (previous : Arg) (as bs : List Arg) :
    joinAfter previous (as ++ bs) =
      joinAfter previous as ++ gap (previous :: as) bs ++ join bs := by
  induction as generalizing previous with
  | nil => cases bs <;> simp [joinAfter, join, gap, String.append_assoc]
  | cons a as ih =>
    simp only [List.cons_append, joinAfter, ih a, gap_cons_cons, String.append_assoc]

theorem join_append (as bs : List Arg) : join (as ++ bs) = join as ++ gap as bs ++ join bs := by
  cases as with
  | nil => simp [join]
  | cons a as => simp only [List.cons_append, join, joinAfter_append, String.append_assoc]

theorem join_singleton (a : Arg) : join [a] = a.render := by simp [join, joinAfter]

/-- Whatever joins one argument to its text, and a list from its parts with the gap between
them, gives the message. -/
theorem eq_join {f : List Arg → String} (hnil : f [] = "") (hone : ∀ a, f [a] = a.render)
    (happend : ∀ as bs, f (as ++ bs) = f as ++ gap as bs ++ f bs) : f = join := by
  funext as
  induction as with
  | nil => exact hnil
  | cons a as ih =>
    calc f (a :: as) = f [a] ++ gap [a] as ++ f as := happend [a] as
      _ = join [a] ++ gap [a] as ++ join as := by rw [hone, join_singleton, ih]
      _ = join (a :: as) := (join_append [a] as).symm

/-- Writes one more argument. With what has been written goes a flag that no space may come
next, because the last argument was text or there was none. -/
def write (written : String × Bool) (a : Arg) : String × Bool :=
  (written.1 ++ (if !written.2 && !a.isText then " " else "") ++ a.render, a.isText)

/-- Writing the arguments one after the other writes the message. -/
theorem foldl_write (as : List Arg) :
    as.foldl write ("", true) = (join as, as.getLast?.elim true isText) := by
  induction as using List.reverseRecOn with
  | nil => rfl
  | append_singleton as a ih =>
    rw [List.foldl_append, ih, join_append, join_singleton]
    cases hlast : as.getLast? with
    | none => simp [write, gap, hlast]
    | some b =>
      cases hb : b.isText <;> cases ha : a.isText <;>
        simp [write, gap, separator, hlast, hb, ha]

/-- The messages of two lists of arguments make up that of the whole list, with one space
between them exactly if neither list is empty and neither the last argument of the first nor
the first of the second is text; a text or a block is text, also when it is empty. -/
theorem join_append_spaced (as bs : List Arg) :
    join (as ++ bs) = join as ++
        (if as ≠ [] ∧ bs ≠ [] ∧ (∀ a ∈ as.getLast?, a.isText = false) ∧
          ∀ b ∈ bs.head?, b.isText = false then " " else "") ++ join bs ∧
      join [] = "" ∧ (∀ a, join [a] = a.render) ∧
      ∀ a : Arg, a.isText = true ↔ (∃ s, a = .text s) ∨ ∃ s, a = .block s := by
  refine ⟨?_, rfl, join_singleton, fun a => isText_iff⟩
  rw [join_append, gap_eq_ite]

end LogPipeline.Arg
