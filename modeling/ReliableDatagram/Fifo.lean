/-!
# Queues and totals

A first-in first-out queue in two lists, of which the second is reversed. It is the list `toList`,
extended on the right and taken from on the left.

A total is the sum of a measure over a list, as queues and stores use it to tell how much they hold.
-/
namespace ReliableDatagram

structure Fifo (α : Type) where
  front : List α := []
  back : List α := []
  deriving DecidableEq, Repr

namespace Fifo

variable {α : Type}

def empty : Fifo α := {}

def ofList (l : List α) : Fifo α := { front := l }

def toList (q : Fifo α) : List α :=
  match q.back with
  | [] => q.front
  | back => q.front ++ back.reverse

def push (q : Fifo α) (a : α) : Fifo α := { q with back := a :: q.back }

def pop? (q : Fifo α) : Option (α × Fifo α) :=
  match q.front with
  | a :: front => some (a, { q with front })
  | [] =>
    match q.back.reverse with
    | a :: front => some (a, { front })
    | [] => none

def isEmpty (q : Fifo α) : Bool := q.front.isEmpty && q.back.isEmpty

def length (q : Fifo α) : Nat := q.front.length + q.back.length

theorem toList_eq (q : Fifo α) : q.toList = q.front ++ q.back.reverse := by
  unfold toList
  split <;> simp_all

@[simp] theorem toList_empty : (empty : Fifo α).toList = [] := rfl

@[simp] theorem toList_ofList (l : List α) : (ofList l).toList = l := rfl

@[simp] theorem toList_push (q : Fifo α) (a : α) : (q.push a).toList = q.toList ++ [a] := by
  simp [toList_eq, push]

@[simp] theorem toList_foldl_push (q : Fifo α) (l : List α) :
    (l.foldl push q).toList = q.toList ++ l := by
  induction l generalizing q with
  | nil => simp
  | cons a l ih => simp [ih]

@[simp] theorem length_toList (q : Fifo α) : q.toList.length = q.length := by
  simp [toList_eq, length]

@[simp] theorem isEmpty_iff (q : Fifo α) : q.isEmpty = true ↔ q.toList = [] := by
  simp [toList_eq, isEmpty]

theorem isEmpty_iff_length (q : Fifo α) : q.isEmpty = true ↔ q.length = 0 := by
  rw [isEmpty_iff, ← length_toList, List.length_eq_zero_iff]

theorem pop?_eq_none_iff (q : Fifo α) : q.pop? = none ↔ q.toList = [] := by
  obtain ⟨_ | ⟨a, front⟩, back⟩ := q
  · cases h : back.reverse <;> simp_all [pop?, toList_eq]
  · simp [pop?, toList_eq]

theorem toList_of_pop? {q r : Fifo α} {a : α} (h : q.pop? = some (a, r)) :
    q.toList = a :: r.toList := by
  obtain ⟨_ | ⟨b, front⟩, back⟩ := q
  · cases hb : back.reverse with
    | nil => simp [pop?, hb] at h
    | cons b bs =>
      simp only [pop?, hb, Option.some.injEq, Prod.mk.injEq] at h
      obtain ⟨rfl, rfl⟩ := h
      simp [toList_eq, hb]
  · simp only [pop?, Option.some.injEq, Prod.mk.injEq] at h
    obtain ⟨rfl, rfl⟩ := h
    simp [toList_eq]

end Fifo

/-! ### Totals -/

section total

variable {α : Type}

def total (f : α → Nat) : List α → Nat
  | [] => 0
  | a :: l => f a + total f l

@[simp] theorem total_nil (f : α → Nat) : total f [] = 0 := rfl

@[simp] theorem total_cons (f : α → Nat) (a : α) (l : List α) :
    total f (a :: l) = f a + total f l := rfl

@[simp] theorem total_append (f : α → Nat) (l m : List α) :
    total f (l ++ m) = total f l + total f m := by
  induction l with
  | nil => simp
  | cons a l ih => simp [ih, Nat.add_assoc]

theorem total_filter_add (f : α → Nat) (p : α → Bool) (l : List α) :
    total f (l.filter p) + total f (l.filter (!p ·)) = total f l := by
  induction l with
  | nil => rfl
  | cons a l ih => cases h : p a <;> simp [h] <;> omega

end total
end ReliableDatagram
