import Mathlib

/-!
# Stores into a buffer

A buffer is a list of a fixed length. A store outside of it fails; `write` stores some values one
behind the other. `write_eq` says what a buffer is behind a write that fits, and `lt_of_store` that
a store outside does not succeed. `cString` reads a buffer up to the first zero.
-/

namespace Buffer

variable {α : Type*}

def store (i : Nat) (x : α) (buf : List α) : Option (List α) :=
  if i < buf.length then some (buf.set i x) else none

def write : Nat → List α → List α → Option (List α)
  | _, [], buf => some buf
  | i, x :: xs, buf => (store i x buf).bind (write (i + 1) xs)

/-- The values in front of the first zero. -/
def cString [Zero α] [DecidableEq α] (buf : List α) : List α :=
  buf.takeWhile fun x => decide (x ≠ 0)

variable {i : Nat} {x : α} {xs ys buf buf' : List α}

theorem store_of_lt (h : i < buf.length) : store i x buf = some (buf.set i x) := if_pos h

theorem length_of_store (h : store i x buf = some buf') : buf'.length = buf.length := by
  unfold store at h
  split_ifs at h
  cases h
  exact List.length_set

theorem lt_of_store (h : store i x buf = some buf') : i < buf.length := by
  unfold store at h
  split_ifs at h with hi
  exact hi

theorem length_of_write (h : write i xs buf = some buf') : buf'.length = buf.length := by
  induction xs generalizing i buf with
  | nil =>
    cases h
    rfl
  | cons x xs ih =>
    obtain ⟨buf₁, hstore, hrest⟩ := Option.bind_eq_some_iff.mp h
    exact (ih hrest).trans (length_of_store hstore)

theorem write_append (i : Nat) (xs ys buf : List α) :
    write i (xs ++ ys) buf = (write i xs buf).bind (write (i + xs.length) ys) := by
  induction xs generalizing i buf with
  | nil => rfl
  | cons x xs ih =>
    have hlength : i + (x :: xs).length = i + 1 + xs.length := by
      rw [List.length_cons, Nat.add_right_comm, Nat.add_assoc]
    show (store i x buf).bind (write (i + 1) (xs ++ ys)) =
      ((store i x buf).bind (write (i + 1) xs)).bind _
    rw [Option.bind_assoc, hlength]
    exact congrArg _ (funext (ih (i + 1)))

theorem write_eq (h : i + xs.length ≤ buf.length) :
    write i xs buf = some (buf.take i ++ xs ++ buf.drop (i + xs.length)) := by
  induction xs generalizing i buf with
  | nil => simp [write]
  | cons x xs ih =>
    have hlength : i + (x :: xs).length = i + 1 + xs.length := by
      rw [List.length_cons, Nat.add_right_comm, Nat.add_assoc]
    rw [hlength] at h ⊢
    have hi : i < buf.length := (Nat.le_add_right (i + 1) xs.length).trans h
    have hsplit : buf.set i x = (buf.take i ++ [x]) ++ buf.drop (i + 1) := by
      rw [List.set_eq_take_append_cons_drop, if_pos hi, List.append_assoc, List.singleton_append]
    have hfirst : (buf.take i ++ [x]).length = i + 1 := by
      rw [List.length_append, List.length_take_of_le hi.le, List.length_singleton]
    rw [write, store_of_lt hi, Option.bind_some, ih (by rwa [List.length_set]), hsplit,
      List.take_left' hfirst, ← hfirst, List.drop_length_add_append, hfirst, List.drop_drop,
      List.append_assoc, List.append_assoc, List.append_assoc]
    rfl

theorem cString_append [Zero α] [DecidableEq α] (h : ∀ x ∈ xs, x ≠ 0) (ys : List α) :
    cString (xs ++ ys) = xs ++ cString ys :=
  List.takeWhile_append_of_pos fun x hx => decide_eq_true (h x hx)

end Buffer
