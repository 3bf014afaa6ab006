/-!
# Columns

Cells of a listing have a least width, counted in characters. A longer text is kept whole.

* `alignLeft_length`, `alignRight_length`: a cell is as wide as asked or as its text, whichever is
  more.
-/
namespace Pseudocode.Text

/-- The text at the left of a cell of the given width. -/
def alignLeft (width : Nat) (text : String) : String :=
  text ++ String.ofList (List.replicate (width - text.length) ' ')

/-- The text at the right of a cell of the given width, the gap filled with `fill`. -/
def alignRight (fill : Char) (width : Nat) (text : String) : String :=
  String.ofList (List.replicate (width - text.length) fill) ++ text

theorem alignLeft_length (width : Nat) (text : String) :
    (alignLeft width text).length = max width text.length := by
  simp [alignLeft]; omega

theorem alignRight_length (fill : Char) (width : Nat) (text : String) :
    (alignRight fill width text).length = max width text.length := by
  simp [alignRight]; omega

end Pseudocode.Text
