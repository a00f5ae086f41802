/-!
Blank characters: Unicode's White_Space property, with trimming and splitting into words.
-/

namespace Stencil.Text

/-- Unicode's White_Space property. -/
def isBlank (c : Char) : Bool :=
  let n := c.toNat
  (9 ≤ n && n ≤ 13) || n == 0x20 || n == 0x85 || n == 0xA0 || n == 0x1680 ||
    (0x2000 ≤ n && n ≤ 0x200A) || n == 0x2028 || n == 0x2029 || n == 0x202F ||
    n == 0x205F || n == 0x3000

def trim (cs : List Char) : List Char :=
  ((cs.dropWhile isBlank).reverse.dropWhile isBlank).reverse

def wordsFrom (word : List Char) : List Char → List (List Char)
  | [] => if word.isEmpty then [] else [word]
  | c :: rest =>
      if isBlank c then
        if word.isEmpty then wordsFrom [] rest else word :: wordsFrom [] rest
      else wordsFrom (word ++ [c]) rest

def words (cs : List Char) : List (List Char) := wordsFrom [] cs

theorem ne_nil_of_mem_wordsFrom {word : List Char} {cs w : List Char}
    (member : w ∈ wordsFrom word cs) : w ≠ [] := by
  induction cs generalizing word with
  | nil =>
      simp only [wordsFrom] at member
      split at member <;> simp_all
  | cons c rest ih =>
      simp only [wordsFrom] at member
      split at member
      · split at member
        · exact ih member
        · rcases List.mem_cons.mp member with rfl | later
          · simp_all
          · exact ih later
      · exact ih member

theorem ne_nil_of_mem_words {cs w : List Char} (member : w ∈ words cs) : w ≠ [] :=
  ne_nil_of_mem_wordsFrom member

end Stencil.Text
