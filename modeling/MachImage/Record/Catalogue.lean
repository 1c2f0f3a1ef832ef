import MachImage.Record.Command
import MachImage.Record.Metadata
/-!
All layouts, by label.
-/
namespace MachImage.Layout

def all : List Layout :=
  [.of FatHeader, .of FatArch, .of Header, .of CommandHeader, .of SegmentCommand,
   .of SectionHeader, .of EncryptionInfo, .of SymbolEntry, .of SymbolTableCommand,
   .of DynamicTableCommand, .of LinkInfoCommand, .of LinkeditData, .of BuildVersion,
   .of BuildTool, .of VersionMinimum, .of SourceVersion, .of EntryPoint, .of Uuid,
   .of DylibCommand, .of DylinkerCommand, .of ClassRecord, .of ClassData, .of CategoryRecord,
   .of ProtocolRecord, .of ProtocolListHeader, .of EntryListHeader, .of MethodEntry,
   .of IvarEntry, .of PropertyEntry, .of TypeDescriptor]

def named (label : String) : Except Fault Layout :=
  match all.find? (·.label == label) with
  | some l => .ok l
  | none => .error (.misuse (.noLayout label))

end MachImage.Layout
