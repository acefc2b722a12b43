import ContractQuery.Concrete.Basic
import ContractQuery.Text.Space

/-!
# Texts without a Concrete Tree

A text that no grammar has read still has a concrete tree, the least one there is: nothing if
the text is blank, and otherwise a single error from the first character that is not blank to
the end. Grammars are not modelled, so this tree says nothing about what one would make of the
text.
-/

namespace ContractQuery.Concrete

/-- How many bytes characters take up. -/
def byteCount (cs : List Char) : Nat := cs.foldl (fun n c => n + c.utf8Size) 0

/-- What a node says about itself that covers a text but for the blanks in front. -/
def unreadInfo (text : String) (kind : String) (isError hasError : Bool) : Info :=
  let blanks := text.toList.takeWhile Text.isSpace
  { field := none
    kind
    named := true
    isError
    isMissing := false
    hasError
    startByte := byteCount blanks
    endByte := text.utf8ByteSize
    start := Position.origin.afterAll blanks
    stop := Position.origin.afterAll text.toList }

/-- The concrete tree of a text that no grammar has read. -/
def unread (text : String) : Concrete :=
  if text.toList.all Text.isSpace then mk (unreadInfo text "source_file" false false) []
  else mk (unreadInfo text "source_file" false true) [mk (unreadInfo text "ERROR" true true) []]

end ContractQuery.Concrete
