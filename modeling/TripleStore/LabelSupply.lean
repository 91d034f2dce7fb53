/-! # Labels for fresh nodes

Fresh blank nodes get their labels one after the other from a supply, which never gives a label twice.
That no given node has such a label is up to the choice of the supply. -/
namespace TripleStore

/-- An unlimited supply of different labels. -/
structure LabelSupply where
  label : Nat → String
  label_inj : ∀ {m n}, label m = label n → m = n

namespace LabelSupply

/-- A number behind a stem, filled up to 32 characters. As long as there is anything to fill up, none of
these labels is part of another, and they are ordered as the same texts without the filling are. -/
def numbered (stem : String) (n : Nat) : String :=
  String.ofList ((stem.toList ++ Nat.toDigits 10 n).rightpad 32 '-')

theorem takeWhile_digits (n k : Nat) :
    (Nat.toDigits 10 n ++ List.replicate k '-').takeWhile Char.isDigit = Nat.toDigits 10 n := by
  rw [List.takeWhile_append_of_pos fun _ h => Nat.isDigit_of_mem_toDigits (by decide) (by decide) h]
  simp

theorem numbered_inj {stem : String} {m n : Nat} (h : numbered stem m = numbered stem n) :
    m = n := by
  have h := congrArg String.toList h
  simp only [numbered, List.rightpad, String.toList_ofList, List.append_assoc] at h
  have h := congrArg (List.takeWhile Char.isDigit) (List.append_cancel_left h)
  rw [takeWhile_digits, takeWhile_digits] at h
  have h := congrArg (Nat.ofDigitChars 10 · 0) h
  simpa using h

def ofStem (stem : String) : LabelSupply where
  label := numbered stem
  label_inj := numbered_inj

end LabelSupply
end TripleStore
