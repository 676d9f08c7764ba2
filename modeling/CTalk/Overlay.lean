import Mathlib.Data.List.Basic
import Mathlib.Data.List.Induction

/-! Lists written over the front of a longer one, one after the other: which of them each
place of the result comes from. -/

set_option autoImplicit false

namespace Overlay

variable {α : Type}

def overlay (base top : List α) : List α := top ++ base.drop top.length

theorem overlay_length {base top : List α} (hle : top.length ≤ base.length) :
    (overlay base top).length = base.length := by
  rw [overlay,List.length_append,List.length_drop]
  omega

theorem overlay_getElem? (base top : List α) (j : Nat) :
    (overlay base top)[j]? = top[j]?.or base[j]? := by
  rw [overlay,List.getElem?_append]
  by_cases hj : j < top.length
  · rw [if_pos hj,List.getElem?_eq_getElem hj,Option.some_or]
  · have hplace : top.length + (j - top.length) = j := by omega
    have hnone : top[j]? = none := List.getElem?_eq_none (Nat.le_of_not_lt hj)
    rw [if_neg hj,List.getElem?_drop,hplace,hnone,Option.none_or]

/-- The place j of the last list that is long enough to have one. -/
def covering (tops : List (List α)) (j : Nat) : Option α :=
  tops.reverse.findSome? (fun top => top[j]?)

theorem covering_snoc (tops : List (List α)) (top : List α) (j : Nat) :
    covering (tops ++ [top]) j = top[j]?.or (covering tops j) := by
  rw [covering,List.reverse_append,List.reverse_singleton,List.singleton_append,
    List.findSome?_cons]
  cases top[j]? with
  | none => rfl
  | some x => rfl

theorem covering_map_take {n j : Nat} (hj : j < n) (tops : List (List α)) :
    covering (tops.map (List.take n)) j = covering tops j := by
  induction tops using List.reverseRecOn with
  | nil => rfl
  | append_singleton tops top ih =>
    rw [List.map_append,List.map_singleton,covering_snoc,covering_snoc,ih,
      List.getElem?_take_of_lt hj]

theorem foldl_overlay_length {base : List α} {tops : List (List α)}
    (hle : ∀ top ∈ tops, top.length ≤ base.length) :
    (tops.foldl overlay base).length = base.length := by
  induction tops using List.reverseRecOn with
  | nil => rfl
  | append_singleton tops top ih =>
    have hfront := ih (fun t ht => hle t (List.mem_append_left [top] ht))
    have hlast : top.length ≤ base.length := hle top (by simp)
    rw [List.foldl_append,List.foldl_cons,List.foldl_nil,
      overlay_length (by rw [hfront]; exact hlast),hfront]

theorem foldl_overlay_getElem? (base : List α) (tops : List (List α)) (j : Nat) :
    (tops.foldl overlay base)[j]? = (covering tops j).or base[j]? := by
  induction tops using List.reverseRecOn with
  | nil => rfl
  | append_singleton tops top ih =>
    rw [List.foldl_append,List.foldl_cons,List.foldl_nil,overlay_getElem?,ih,covering_snoc,
      Option.or_assoc]

end Overlay
