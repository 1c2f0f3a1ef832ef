import MachImage.Text.Quoted
import MachImage.Text.Utf8
/-!
A string table is cut at its NULs: each entry runs from behind one NUL, or from the start, to the
next. Bytes behind the last NUL are no entry. The text of an entry is its UTF-8 reading, or the
quoted bytes if they are not UTF-8.
-/
namespace MachImage.StringTable

structure Entry where
  start : Nat
  bytes : List UInt8

/-- `run` holds the bytes since `start`, the last first. -/
def entriesFrom (start : Nat) (run : List UInt8) : List UInt8 → List Entry
  | [] => []
  | b :: bs =>
    if b = 0 then ⟨start, run.reverse⟩ :: entriesFrom (start + run.length + 1) [] bs
    else entriesFrom start (b :: run) bs

def entries (table : List UInt8) : List Entry := entriesFrom 0 [] table

def entryAt? (es : List Entry) (index : Int) : Option Entry := es.find? (·.start = index)

namespace Entry

def length (e : Entry) : Nat := e.bytes.length

def text (e : Entry) : String := (Utf8.decode? e.bytes).getD (Quoted.bytes e.bytes)

def shown (e : Entry) : String := s!"<MachoStringTableEntry [{e.start}] {e.text}>"

end Entry

end MachImage.StringTable
