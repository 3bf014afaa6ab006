/-!
# Text measured in bytes

Positions in a source text are byte offsets of its UTF-8 form, while the library works on
lists of characters. `dropBytes?` and `takeBytes?` cut a list at such an offset and refuse an
offset that falls inside a character or past the end.

* `byteLength_append`: the length of a concatenation is the sum of the lengths;
* `dropBytes?_append`: dropping the length of a front part leaves the rest;
* `takeBytes?_append`: taking the length of a front part gives that part;
* `slice?_append`: the range that a middle part fills is that part;
* `slice?_eq_some_iff`: and a range is a middle part;
* `ofBytes?_bytes`: the UTF-8 form of a text is read back;
* `bytes_of_ofBytes?`: and nothing else is read as that text.
-/
namespace Pseudocode.Text

def byteLength : List Char → Nat
  | [] => 0
  | c :: cs => c.utf8Size + byteLength cs

/-- The characters from byte `n` on; `none` if `n` is no boundary between characters. -/
def dropBytes? : Nat → List Char → Option (List Char)
  | 0, cs => some cs
  | _ + 1, [] => none
  | n + 1, c :: cs => if c.utf8Size ≤ n + 1 then dropBytes? (n + 1 - c.utf8Size) cs else none

/-- The characters before byte `n`; `none` if `n` is no boundary between characters. -/
def takeBytes? : Nat → List Char → Option (List Char)
  | 0, _ => some []
  | _ + 1, [] => none
  | n + 1, c :: cs =>
    if c.utf8Size ≤ n + 1 then (takeBytes? (n + 1 - c.utf8Size) cs).map (c :: ·) else none

/-- The text of `length` bytes that starts at byte `start`; `none` if the range leaves the text or
cuts a character. -/
def slice? (text : String) (start length : Nat) : Option String :=
  ((dropBytes? start text.toList).bind (takeBytes? length)).map String.ofList

def bytes (text : String) : List UInt8 := text.toUTF8.data.toList

/-- The text with the given UTF-8 form, if they are one. -/
def ofBytes? (bs : List UInt8) : Option String := String.fromUTF8? ⟨bs.toArray⟩

@[simp] theorem byteLength_nil : byteLength [] = 0 := rfl

@[simp] theorem byteLength_cons (c : Char) (cs : List Char) :
    byteLength (c :: cs) = c.utf8Size + byteLength cs := rfl

@[simp] theorem byteLength_append (xs ys : List Char) :
    byteLength (xs ++ ys) = byteLength xs + byteLength ys := by
  induction xs with
  | nil => simp
  | cons c cs ih => simp [ih, Nat.add_assoc]

@[simp] theorem dropBytes?_zero (cs : List Char) : dropBytes? 0 cs = some cs := by
  cases cs <;> rfl

@[simp] theorem takeBytes?_zero (cs : List Char) : takeBytes? 0 cs = some [] := by
  cases cs <;> rfl

theorem dropBytes?_cons (c : Char) (cs : List Char) (n : Nat) :
    dropBytes? (c.utf8Size + n) (c :: cs) = dropBytes? n cs := by
  have pos := c.utf8Size_pos
  obtain ⟨k, hk⟩ : ∃ k, c.utf8Size + n = k + 1 := ⟨c.utf8Size + n - 1, by omega⟩
  rw [hk, dropBytes?, if_pos (by omega)]
  congr 1
  omega

theorem takeBytes?_cons (c : Char) (cs : List Char) (n : Nat) :
    takeBytes? (c.utf8Size + n) (c :: cs) = (takeBytes? n cs).map (c :: ·) := by
  have pos := c.utf8Size_pos
  obtain ⟨k, hk⟩ : ∃ k, c.utf8Size + n = k + 1 := ⟨c.utf8Size + n - 1, by omega⟩
  rw [hk, takeBytes?, if_pos (by omega)]
  congr 2
  omega

theorem dropBytes?_append (xs ys : List Char) :
    dropBytes? (byteLength xs) (xs ++ ys) = some ys := by
  induction xs with
  | nil => simp
  | cons c cs ih => rw [byteLength_cons, List.cons_append, dropBytes?_cons, ih]

theorem takeBytes?_append (xs ys : List Char) :
    takeBytes? (byteLength xs) (xs ++ ys) = some xs := by
  induction xs with
  | nil => simp
  | cons c cs ih => rw [byteLength_cons, List.cons_append, takeBytes?_cons, ih, Option.map_some]

/-- The range that a middle part fills is that part. -/
theorem slice?_append (xs ys zs : List Char) :
    slice? (String.ofList (xs ++ (ys ++ zs))) (byteLength xs) (byteLength ys) =
      some (String.ofList ys) := by
  simp [slice?, dropBytes?_append, takeBytes?_append]

theorem eq_of_dropBytes? {n : Nat} {cs ds : List Char} (dropped : dropBytes? n cs = some ds) :
    ∃ front, cs = front ++ ds ∧ byteLength front = n := by
  fun_induction dropBytes? n cs with
  | case1 cs => exact ⟨[], Option.some.inj dropped, rfl⟩
  | case2 n => cases dropped
  | case3 n c cs fits ih =>
    obtain ⟨front, rfl, width⟩ := ih dropped
    exact ⟨c :: front, rfl, by rw [byteLength_cons]; omega⟩
  | case4 n c cs wide => cases dropped

theorem eq_of_takeBytes? {n : Nat} {cs ds : List Char} (taken : takeBytes? n cs = some ds) :
    ∃ back, cs = ds ++ back ∧ byteLength ds = n := by
  fun_induction takeBytes? n cs generalizing ds with
  | case1 cs => cases taken; exact ⟨cs, rfl, rfl⟩
  | case2 n => cases taken
  | case3 n c cs fits ih =>
    obtain ⟨front, rest, rfl⟩ := Option.map_eq_some_iff.1 taken
    obtain ⟨back, rfl, width⟩ := ih rest
    exact ⟨back, rfl, by rw [byteLength_cons]; omega⟩
  | case4 n c cs wide => cases taken

/-- A range of a text is a middle part of it. -/
theorem slice?_eq_some_iff {text : String} {start length : Nat} {cs : List Char} :
    slice? text start length = some (String.ofList cs) ↔ ∃ front back,
      text.toList = front ++ (cs ++ back) ∧ byteLength front = start ∧ byteLength cs = length := by
  constructor
  · intro cut
    obtain ⟨ds, found, same⟩ := Option.map_eq_some_iff.1 cut
    obtain rfl := String.ofList_injective same
    obtain ⟨rest, dropped, taken⟩ := Option.bind_eq_some_iff.1 found
    obtain ⟨front, whole, before⟩ := eq_of_dropBytes? dropped
    obtain ⟨back, rfl, width⟩ := eq_of_takeBytes? taken
    exact ⟨front, back, whole, before, width⟩
  · rintro ⟨front, back, whole, rfl, rfl⟩
    rw [← String.ofList_toList (s := text), whole, slice?_append]

/-- The UTF-8 form of a text is read back. -/
theorem ofBytes?_bytes (text : String) : ofBytes? (bytes text) = some text := by
  have valid : (⟨(bytes text).toArray⟩ : ByteArray).IsValidUTF8 := text.isValidUTF8
  rw [ofBytes?, String.fromUTF8?, dif_pos valid]
  rfl

/-- Nothing but its UTF-8 form is read as a text. -/
theorem bytes_of_ofBytes? {bs : List UInt8} {text : String} (h : ofBytes? bs = some text) :
    bytes text = bs := by
  unfold ofBytes? String.fromUTF8? at h
  split at h
  · cases h
    rfl
  · cases h

end Pseudocode.Text
