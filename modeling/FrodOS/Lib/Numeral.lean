import FrodOS.Lib.Memory
import Mathlib.Data.Nat.Digits.Lemmas

/-!
# Numerals

A text of digits, the first one the most significant, under any reading of single
characters as digits.
-/

namespace Lib

/-- The number that a text denotes in the given base. -/
def positional (base : ℕ) (val : Byte → ℕ) (text : List Byte) : ℕ :=
  text.foldl (fun n c => base * n + val c) 0

variable {base : ℕ} {val : Byte → ℕ}

theorem foldl_positional (text : List Byte) (n : ℕ) :
    text.foldl (fun n c => base * n + val c) n = n * base ^ text.length + positional base val text := by
  induction text generalizing n with
  | nil => simp [positional]
  | cons c text ih =>
    rw [positional, List.foldl_cons, List.foldl_cons, ih, ih (base * 0 + val c), List.length_cons, pow_succ]
    ring

theorem positional_append (s t : List Byte) :
    positional base val (s ++ t) = positional base val s * base ^ t.length + positional base val t := by
  rw [positional, List.foldl_append, foldl_positional]
  rfl

/-- The digits of a number, written in characters that are read back as them. -/
theorem positional_digits {char : ℕ → Byte} (hchar : ∀ d < base, val (char d) = d) (hbase : 1 < base) (n : ℕ) :
    positional base val ((Nat.digits base n).reverse.map char) = n := by
  have hdigits : ∀ d ∈ Nat.digits base n, val (char d) = d :=
    fun d hd => hchar d (Nat.digits_lt_base hbase hd)
  have hread : ∀ l : List ℕ, (∀ d ∈ l, val (char d) = d) →
      positional base val (l.reverse.map char) = Nat.ofDigits base l := by
    intro l hl
    induction l with
    | nil => rfl
    | cons d l ih =>
      rw [List.reverse_cons, List.map_append, positional_append, ih fun e he => hl e (List.mem_cons_of_mem _ he),
        Nat.ofDigits_cons]
      have hd := hl d List.mem_cons_self
      simp only [List.map_cons, List.map_nil, positional, List.foldl_cons, List.foldl_nil, List.length_singleton,
        pow_one, Nat.mul_zero, Nat.zero_add, hd]
      rw [Nat.mul_comm, Nat.add_comm]
  rw [hread _ hdigits, Nat.ofDigits_digits]

end Lib
