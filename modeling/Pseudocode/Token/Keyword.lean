/-!
# Reserved words

The words that a pseudocode program may not use as identifiers. A reserved word is written in
capital letters exactly; `OR_ELSE`, `Or` and `IFF` are identifiers.

* `ofText?_text`: each word is found under its own spelling;
* `text_of_ofText?`: and under no other.
-/
namespace Pseudocode

/-- A reserved word, named by its spelling. -/
inductive Keyword where
  | AND | APPEND | ARRAY | BOOLEAN | BYREF | BYVAL | CALL | CASE | CHAR | CLASS | CLOSEFILE
  | CONSTANT | DATE | DECLARE | DEFINE | DIV | ELSE | ENDCASE | ENDCLASS | ENDFUNCTION | ENDIF
  | ENDPROCEDURE | ENDTYPE | ENDWHILE | FALSE | FOR | FUNCTION | GETRECORD | IF | INHERITS | INPUT
  | INTEGER | MOD | NEW | NEXT | NOT | OPENFILE | OR | OTHERWISE | OUTPUT | PRIVATE | PROCEDURE
  | PUBLIC | PUTRECORD | RANDOM | READ | READFILE | REAL | REPEAT | RETURN | RETURNS | SEEK | STEP
  | STRING | SUPER | THEN | TRUE | TYPE | UNTIL | WHILE | WRITE | WRITEFILE
  deriving DecidableEq, Repr

namespace Keyword

def text : Keyword → String
  | .AND => "AND"
  | .APPEND => "APPEND"
  | .ARRAY => "ARRAY"
  | .BOOLEAN => "BOOLEAN"
  | .BYREF => "BYREF"
  | .BYVAL => "BYVAL"
  | .CALL => "CALL"
  | .CASE => "CASE"
  | .CHAR => "CHAR"
  | .CLASS => "CLASS"
  | .CLOSEFILE => "CLOSEFILE"
  | .CONSTANT => "CONSTANT"
  | .DATE => "DATE"
  | .DECLARE => "DECLARE"
  | .DEFINE => "DEFINE"
  | .DIV => "DIV"
  | .ELSE => "ELSE"
  | .ENDCASE => "ENDCASE"
  | .ENDCLASS => "ENDCLASS"
  | .ENDFUNCTION => "ENDFUNCTION"
  | .ENDIF => "ENDIF"
  | .ENDPROCEDURE => "ENDPROCEDURE"
  | .ENDTYPE => "ENDTYPE"
  | .ENDWHILE => "ENDWHILE"
  | .FALSE => "FALSE"
  | .FOR => "FOR"
  | .FUNCTION => "FUNCTION"
  | .GETRECORD => "GETRECORD"
  | .IF => "IF"
  | .INHERITS => "INHERITS"
  | .INPUT => "INPUT"
  | .INTEGER => "INTEGER"
  | .MOD => "MOD"
  | .NEW => "NEW"
  | .NEXT => "NEXT"
  | .NOT => "NOT"
  | .OPENFILE => "OPENFILE"
  | .OR => "OR"
  | .OTHERWISE => "OTHERWISE"
  | .OUTPUT => "OUTPUT"
  | .PRIVATE => "PRIVATE"
  | .PROCEDURE => "PROCEDURE"
  | .PUBLIC => "PUBLIC"
  | .PUTRECORD => "PUTRECORD"
  | .RANDOM => "RANDOM"
  | .READ => "READ"
  | .READFILE => "READFILE"
  | .REAL => "REAL"
  | .REPEAT => "REPEAT"
  | .RETURN => "RETURN"
  | .RETURNS => "RETURNS"
  | .SEEK => "SEEK"
  | .STEP => "STEP"
  | .STRING => "STRING"
  | .SUPER => "SUPER"
  | .THEN => "THEN"
  | .TRUE => "TRUE"
  | .TYPE => "TYPE"
  | .UNTIL => "UNTIL"
  | .WHILE => "WHILE"
  | .WRITE => "WRITE"
  | .WRITEFILE => "WRITEFILE"

/-- The name of the word's kind in a listing of kinds: a type's word ends in `Type`. -/
def label : Keyword → String
  | .AND => "And"
  | .APPEND => "Append"
  | .ARRAY => "Array"
  | .BOOLEAN => "Boolean"
  | .BYREF => "ByRef"
  | .BYVAL => "ByVal"
  | .CALL => "Call"
  | .CASE => "Case"
  | .CHAR => "CharType"
  | .CLASS => "Class"
  | .CLOSEFILE => "CloseFile"
  | .CONSTANT => "Constant"
  | .DATE => "DateType"
  | .DECLARE => "Declare"
  | .DEFINE => "Define"
  | .DIV => "Div"
  | .ELSE => "Else"
  | .ENDCASE => "EndCase"
  | .ENDCLASS => "EndClass"
  | .ENDFUNCTION => "EndFunction"
  | .ENDIF => "EndIf"
  | .ENDPROCEDURE => "EndProcedure"
  | .ENDTYPE => "EndType"
  | .ENDWHILE => "EndWhile"
  | .FALSE => "False"
  | .FOR => "For"
  | .FUNCTION => "Function"
  | .GETRECORD => "GetRecord"
  | .IF => "If"
  | .INHERITS => "Inherits"
  | .INPUT => "Input"
  | .INTEGER => "IntegerType"
  | .MOD => "Mod"
  | .NEW => "New"
  | .NEXT => "Next"
  | .NOT => "Not"
  | .OPENFILE => "OpenFile"
  | .OR => "Or"
  | .OTHERWISE => "Otherwise"
  | .OUTPUT => "Output"
  | .PRIVATE => "Private"
  | .PROCEDURE => "Procedure"
  | .PUBLIC => "Public"
  | .PUTRECORD => "PutRecord"
  | .RANDOM => "Random"
  | .READ => "Read"
  | .READFILE => "ReadFile"
  | .REAL => "RealType"
  | .REPEAT => "Repeat"
  | .RETURN => "Return"
  | .RETURNS => "Returns"
  | .SEEK => "Seek"
  | .STEP => "Step"
  | .STRING => "StringType"
  | .SUPER => "Super"
  | .THEN => "Then"
  | .TRUE => "True"
  | .TYPE => "Type"
  | .UNTIL => "Until"
  | .WHILE => "While"
  | .WRITE => "Write"
  | .WRITEFILE => "WriteFile"

/-- Every reserved word, in alphabetical order. -/
def all : List Keyword :=
  [.AND, .APPEND, .ARRAY, .BOOLEAN, .BYREF, .BYVAL, .CALL, .CASE, .CHAR, .CLASS, .CLOSEFILE,
   .CONSTANT, .DATE, .DECLARE, .DEFINE, .DIV, .ELSE, .ENDCASE, .ENDCLASS, .ENDFUNCTION, .ENDIF,
   .ENDPROCEDURE, .ENDTYPE, .ENDWHILE, .FALSE, .FOR, .FUNCTION, .GETRECORD, .IF, .INHERITS, .INPUT,
   .INTEGER, .MOD, .NEW, .NEXT, .NOT, .OPENFILE, .OR, .OTHERWISE, .OUTPUT, .PRIVATE, .PROCEDURE,
   .PUBLIC, .PUTRECORD, .RANDOM, .READ, .READFILE, .REAL, .REPEAT, .RETURN, .RETURNS, .SEEK, .STEP,
   .STRING, .SUPER, .THEN, .TRUE, .TYPE, .UNTIL, .WHILE, .WRITE, .WRITEFILE]

/-- The reserved word with this spelling. -/
def ofText? (word : String) : Option Keyword := all.find? fun k => k.text = word

theorem mem_all (k : Keyword) : k ∈ all := by
  cases k <;> decide

theorem ofText?_text (k : Keyword) : ofText? k.text = some k := by
  cases k <;> decide

theorem text_injective {a b : Keyword} (h : a.text = b.text) : a = b :=
  Option.some.inj <| by rw [← ofText?_text a, ← ofText?_text b, h]

theorem text_of_ofText? {word : String} {k : Keyword} (h : ofText? word = some k) :
    k.text = word := by
  simpa using List.find?_some h

end Keyword

end Pseudocode
