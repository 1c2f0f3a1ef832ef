import MachImage.Container
import MachImage.Image.FunctionStarts
import MachImage.Image.Memory
import MachImage.Image.Names
import MachImage.LinkInfo.Basic
import MachImage.Objc.Metadata
import MachImage.PrintableRun
import MachImage.SwiftType
import MachImage.TypeCode.Decoder
import MachImage.TypeCode.Printer
import MachImage.TypeCode.Stack
import MachImage.Proofs.Leb.Encoding
import MachImage.Proofs.Region.Strings
import MachImage.Proofs.Region.Slices
import MachImage.Proofs.Cursor.Ahead
import MachImage.Proofs.LinkInfo.Program
import MachImage.Proofs.Image.TameReads
import MachImage.Proofs.Objc.Listing
import MachImage.Proofs.Objc.Extraction
import MachImage.Proofs.Objc.EntryLists
import MachImage.Proofs.Table.Firsts
import MachImage.Proofs.StringTable.Tiling
import MachImage.Proofs.Objc.Description
import MachImage.Proofs.Objc.Passes
import MachImage.Proofs.Objc.ClassList
import MachImage.Proofs.Objc.Merging
import MachImage.Proofs.Objc.ClassNames
import MachImage.Proofs.Image.Bounds
import MachImage.Proofs.Image.Validity
import MachImage.Proofs.Image.Tables
import MachImage.Proofs.Image.CommandTable
import MachImage.Proofs.Image.CutCommands
import MachImage.Proofs.Image.CommandViews
import MachImage.Proofs.Container.Validity
import MachImage.Proofs.LinkInfo.ExportWalk
import MachImage.Proofs.LinkInfo.TameStreams
import MachImage.Proofs.LinkInfo.Streams
import MachImage.Proofs.Text.Numerals
import MachImage.Proofs.TypeCode.Letters
import MachImage.Proofs.TypeCode.Stack
import MachImage.Proofs.TypeCode.RoundTrip
import MachImage.Proofs.LinkInfo.RebaseProgram
import MachImage.Proofs.LinkInfo.BindingProgram
import MachImage.Proofs.LinkInfo.TrieLayout
import MachImage.Proofs.Shift.Reads
import MachImage.Proofs.Shift.Image
import MachImage.Proofs.Shift.Views
import MachImage.Proofs.Shift.Streams
import MachImage.Proofs.Shift.Metadata
import MachImage.Proofs.Shift.Agreement
import MachImage.Proofs.Container.Archived
import MachImage.Proofs.Image.OwnBytes
import MachImage.Proofs.Image.Translation
import MachImage.Proofs.Image.Stretches
import MachImage.Proofs.Image.PointerSlots
import MachImage.Proofs.Objc.EntryBounds
import MachImage.Proofs.Objc.MethodForms
import MachImage.Proofs.Objc.ProtocolNames
import MachImage.Proofs.Objc.EntriesApart
import MachImage.Proofs.Objc.Shadowing
import MachImage.Proofs.LinkInfo.TriePlaces
import MachImage.Proofs.LinkInfo.TrieNames
import MachImage.Proofs.TypeCode.Separation
import MachImage.Proofs.TypeCode.Reprinting
import MachImage.Proofs.Leb.Runs
import MachImage.Proofs.Leb.Wrapping
import MachImage.Proofs.TypeCode.Locality
import MachImage.Proofs.TypeCode.Faults
import MachImage.Proofs.TypeCode.Offsets
import MachImage.Proofs.TypeCode.Steps
import MachImage.Proofs.Image.SymbolNames
import MachImage.Proofs.Image.FunctionStarts
import MachImage.Proofs.Image.PrintableStrings
import MachImage.Proofs.LinkInfo.Ranges
import MachImage.Proofs.LinkInfo.Room
import MachImage.Proofs.Container.ByteOrder
import MachImage.Proofs.SwiftType.Entries
import MachImage.Proofs.Index.Origins
import MachImage.Proofs.Image.Encryption
import MachImage.Proofs.Image.SymbolLists
import MachImage.Proofs.LinkInfo.BoundSymbols
import MachImage.Proofs.TypeCode.Rendering
import MachImage.Proofs.TypeCode.Machine
import MachImage.Proofs.TypeCode.MachineRuns
import MachImage.Proofs.Cursor.Calls
