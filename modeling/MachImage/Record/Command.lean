import MachImage.Record.Basic
/-!
The records of containers, headers, load commands, sections and symbols, as the format lays them
out. Numbers are little-endian; the names of the fields are the format's own.
-/
namespace MachImage
open Record

structure FatHeader where
  (magic archCount : Nat)

instance : Record FatHeader where
  label := "MachoFatHeaderStruct"
  size := 8
  decode bs := { magic := u32 bs 0, archCount := u32 bs 4 }
  fields x := [("magic", x.magic), ("nfat_arch", x.archCount)]

structure FatArch where
  (cpuType cpuSubtype offset size align : Nat)

instance : Record FatArch where
  label := "MachoFatArchStruct"
  size := 20
  decode bs :=
    { cpuType := u32 bs 0, cpuSubtype := u32 bs 4, offset := u32 bs 8, size := u32 bs 12,
      align := u32 bs 16 }
  fields x :=
    [("cputype", x.cpuType), ("cpusubtype", x.cpuSubtype), ("offset", x.offset),
     ("size", x.size), ("align", x.align)]

structure Header where
  (magic cpuType cpuSubtype fileType commandCount commandsSize flags : Nat)
  reserved : Nat

instance : Record Header where
  label := "MachoHeaderStruct"
  size := 32
  decode bs :=
    { magic := u32 bs 0, cpuType := u32 bs 4, cpuSubtype := u32 bs 8, fileType := u32 bs 12,
      commandCount := u32 bs 16, commandsSize := u32 bs 20, flags := u32 bs 24,
      reserved := u32 bs 28 }
  fields x :=
    [("magic", x.magic), ("cputype", x.cpuType), ("cpusubtype", x.cpuSubtype),
     ("filetype", x.fileType), ("ncmds", x.commandCount), ("sizeofcmds", x.commandsSize),
     ("flags", x.flags), ("reserved", x.reserved)]

structure CommandHeader where
  (cmd cmdSize : Nat)

instance : Record CommandHeader where
  label := "MachoLoadCommandStruct"
  size := 8
  decode bs := { cmd := u32 bs 0, cmdSize := u32 bs 4 }
  fields x := [("cmd", x.cmd), ("cmdsize", x.cmdSize)]

structure SegmentCommand where
  (cmd cmdSize : Nat)
  name : List UInt8
  (vmAddress vmSize fileOffset fileSize maxProtection initialProtection : Nat)
  (sectionCount flags : Nat)

instance : Record SegmentCommand where
  label := "MachoSegmentCommandStruct"
  size := 72
  decode bs :=
    { cmd := u32 bs 0, cmdSize := u32 bs 4, name := name16 bs 8, vmAddress := u64 bs 24,
      vmSize := u64 bs 32, fileOffset := u64 bs 40, fileSize := u64 bs 48,
      maxProtection := u32 bs 56, initialProtection := u32 bs 60, sectionCount := u32 bs 64,
      flags := u32 bs 68 }
  fields x :=
    [("cmd", x.cmd), ("cmdsize", x.cmdSize), ("segname", .chars x.name), ("vmaddr", x.vmAddress),
     ("vmsize", x.vmSize), ("fileoff", x.fileOffset), ("filesize", x.fileSize),
     ("maxprot", x.maxProtection), ("initprot", x.initialProtection), ("nsects", x.sectionCount),
     ("flags", x.flags)]

structure SectionHeader where
  (name segmentName : List UInt8)
  (address size fileOffset align relocationOffset relocationCount : Nat)
  (flags reserved1 reserved2 reserved3 : Nat)

instance : Record SectionHeader where
  label := "MachoSectionRawStruct"
  size := 80
  decode bs :=
    { name := name16 bs 0, segmentName := name16 bs 16, address := u64 bs 32, size := u64 bs 40,
      fileOffset := u32 bs 48, align := u32 bs 52, relocationOffset := u32 bs 56,
      relocationCount := u32 bs 60, flags := u32 bs 64, reserved1 := u32 bs 68,
      reserved2 := u32 bs 72, reserved3 := u32 bs 76 }
  fields x :=
    [("sectname", .chars x.name), ("segname", .chars x.segmentName), ("addr", x.address),
     ("size", x.size), ("offset", x.fileOffset), ("align", x.align),
     ("reloff", x.relocationOffset), ("nreloc", x.relocationCount), ("flags", x.flags),
     ("reserved1", x.reserved1), ("reserved2", x.reserved2), ("reserved3", x.reserved3)]

structure EncryptionInfo where
  (cmd cmdSize cryptOffset cryptSize cryptId pad : Nat)

instance : Record EncryptionInfo where
  label := "MachoEncryptionInfoStruct"
  size := 24
  decode bs :=
    { cmd := u32 bs 0, cmdSize := u32 bs 4, cryptOffset := u32 bs 8, cryptSize := u32 bs 12,
      cryptId := u32 bs 16, pad := u32 bs 20 }
  fields x :=
    [("cmd", x.cmd), ("cmdsize", x.cmdSize), ("cryptoff", x.cryptOffset),
     ("cryptsize", x.cryptSize), ("cryptid", x.cryptId), ("pad", x.pad)]

structure SymbolEntry where
  (nameIndex type sectionNumber description value : Nat)

instance : Record SymbolEntry where
  label := "MachoNlistStruct"
  size := 16
  decode bs :=
    { nameIndex := u32 bs 0, type := u8 bs 4, sectionNumber := u8 bs 5, description := u16 bs 6,
      value := u64 bs 8 }
  fields x :=
    [("n_un", .group [("n_strx", x.nameIndex)]), ("n_type", x.type), ("n_sect", x.sectionNumber),
     ("n_desc", x.description), ("n_value", x.value)]

structure SymbolTableCommand where
  (cmd cmdSize symbolOffset symbolCount stringOffset stringSize : Nat)

instance : Record SymbolTableCommand where
  label := "MachoSymtabCommandStruct"
  size := 24
  decode bs :=
    { cmd := u32 bs 0, cmdSize := u32 bs 4, symbolOffset := u32 bs 8, symbolCount := u32 bs 12,
      stringOffset := u32 bs 16, stringSize := u32 bs 20 }
  fields x :=
    [("cmd", x.cmd), ("cmdsize", x.cmdSize), ("symoff", x.symbolOffset),
     ("nsyms", x.symbolCount), ("stroff", x.stringOffset), ("strsize", x.stringSize)]

structure DynamicTableCommand where
  (cmd cmdSize localIndex localCount externalIndex externalCount : Nat)
  (undefinedIndex undefinedCount contentsOffset contentsCount moduleOffset : Nat)
  (moduleCount referenceOffset referenceCount indirectOffset indirectCount : Nat)
  (externalRelocationOffset externalRelocationCount localRelocationOffset : Nat)
  localRelocationCount : Nat

instance : Record DynamicTableCommand where
  label := "MachoDysymtabCommandStruct"
  size := 80
  decode bs :=
    { cmd := u32 bs 0, cmdSize := u32 bs 4, localIndex := u32 bs 8, localCount := u32 bs 12,
      externalIndex := u32 bs 16, externalCount := u32 bs 20, undefinedIndex := u32 bs 24,
      undefinedCount := u32 bs 28, contentsOffset := u32 bs 32, contentsCount := u32 bs 36,
      moduleOffset := u32 bs 40, moduleCount := u32 bs 44, referenceOffset := u32 bs 48,
      referenceCount := u32 bs 52, indirectOffset := u32 bs 56, indirectCount := u32 bs 60,
      externalRelocationOffset := u32 bs 64, externalRelocationCount := u32 bs 68,
      localRelocationOffset := u32 bs 72, localRelocationCount := u32 bs 76 }
  fields x :=
    [("cmd", x.cmd), ("cmdsize", x.cmdSize), ("ilocalsym", x.localIndex),
     ("nlocalsym", x.localCount), ("iextdefsym", x.externalIndex),
     ("nextdefsym", x.externalCount), ("iundefsym", x.undefinedIndex),
     ("nundefsym", x.undefinedCount), ("tocoff", x.contentsOffset), ("ntoc", x.contentsCount),
     ("modtaboff", x.moduleOffset), ("nmodtab", x.moduleCount),
     ("extrefsymoff", x.referenceOffset), ("nextrefsyms", x.referenceCount),
     ("indirectsymoff", x.indirectOffset), ("nindirectsyms", x.indirectCount),
     ("extreloff", x.externalRelocationOffset), ("nextrel", x.externalRelocationCount),
     ("locreloff", x.localRelocationOffset), ("nlocrel", x.localRelocationCount)]

structure LinkInfoCommand where
  (cmd cmdSize rebaseOffset rebaseSize bindOffset bindSize weakBindOffset : Nat)
  (weakBindSize lazyBindOffset lazyBindSize exportOffset exportSize : Nat)

instance : Record LinkInfoCommand where
  label := "MachoDyldInfoCommandStruct"
  size := 48
  decode bs :=
    { cmd := u32 bs 0, cmdSize := u32 bs 4, rebaseOffset := u32 bs 8, rebaseSize := u32 bs 12,
      bindOffset := u32 bs 16, bindSize := u32 bs 20, weakBindOffset := u32 bs 24,
      weakBindSize := u32 bs 28, lazyBindOffset := u32 bs 32, lazyBindSize := u32 bs 36,
      exportOffset := u32 bs 40, exportSize := u32 bs 44 }
  fields x :=
    [("cmd", x.cmd), ("cmdsize", x.cmdSize), ("rebase_off", x.rebaseOffset),
     ("rebase_size", x.rebaseSize), ("bind_off", x.bindOffset), ("bind_size", x.bindSize),
     ("weak_bind_off", x.weakBindOffset), ("weak_bind_size", x.weakBindSize),
     ("lazy_bind_off", x.lazyBindOffset), ("lazy_bind_size", x.lazyBindSize),
     ("export_off", x.exportOffset), ("export_size", x.exportSize)]

structure LinkeditData where
  (cmd cmdSize dataOffset dataSize : Nat)

instance : Record LinkeditData where
  label := "MachoLinkeditDataCommandStruct"
  size := 16
  decode bs :=
    { cmd := u32 bs 0, cmdSize := u32 bs 4, dataOffset := u32 bs 8, dataSize := u32 bs 12 }
  fields x :=
    [("cmd", x.cmd), ("cmdsize", x.cmdSize), ("dataoff", x.dataOffset), ("datasize", x.dataSize)]

structure BuildVersion where
  (cmd cmdSize platform minimumOs sdk toolCount : Nat)

instance : Record BuildVersion where
  label := "MachoBuildVersionCommandStruct"
  size := 24
  decode bs :=
    { cmd := u32 bs 0, cmdSize := u32 bs 4, platform := u32 bs 8, minimumOs := u32 bs 12,
      sdk := u32 bs 16, toolCount := u32 bs 20 }
  fields x :=
    [("cmd", x.cmd), ("cmdsize", x.cmdSize), ("platform", x.platform), ("minos", x.minimumOs),
     ("sdk", x.sdk), ("ntools", x.toolCount)]

structure BuildTool where
  (tool version : Nat)

instance : Record BuildTool where
  label := "MachoBuildToolVersionStruct"
  size := 8
  decode bs := { tool := u32 bs 0, version := u32 bs 4 }
  fields x := [("tool", x.tool), ("version", x.version)]

structure VersionMinimum where
  (cmd cmdSize version sdk : Nat)

instance : Record VersionMinimum where
  label := "MachoVersionMinCommandStruct"
  size := 16
  decode bs := { cmd := u32 bs 0, cmdSize := u32 bs 4, version := u32 bs 8, sdk := u32 bs 12 }
  fields x := [("cmd", x.cmd), ("cmdsize", x.cmdSize), ("version", x.version), ("sdk", x.sdk)]

structure SourceVersion where
  (cmd cmdSize version : Nat)

instance : Record SourceVersion where
  label := "MachoSourceVersionCommandStruct"
  size := 16
  decode bs := { cmd := u32 bs 0, cmdSize := u32 bs 4, version := u64 bs 8 }
  fields x := [("cmd", x.cmd), ("cmdsize", x.cmdSize), ("version", x.version)]

structure EntryPoint where
  (cmd cmdSize entryOffset stackSize : Nat)

instance : Record EntryPoint where
  label := "MachoEntryPointCommandStruct"
  size := 24
  decode bs :=
    { cmd := u32 bs 0, cmdSize := u32 bs 4, entryOffset := u64 bs 8, stackSize := u64 bs 16 }
  fields x :=
    [("cmd", x.cmd), ("cmdsize", x.cmdSize), ("entryoff", x.entryOffset),
     ("stacksize", x.stackSize)]

structure Uuid where
  (cmd cmdSize : Nat)
  uuid : List UInt8

instance : Record Uuid where
  label := "MachoUUIDCommandStruct"
  size := 24
  decode bs := { cmd := u32 bs 0, cmdSize := u32 bs 4, uuid := bytes16 bs 8 }
  fields x := [("cmd", x.cmd), ("cmdsize", x.cmdSize), ("uuid", .raw x.uuid)]

structure DylibCommand where
  (cmd cmdSize nameOffset timestamp currentVersion compatibilityVersion : Nat)

instance : Record DylibCommand where
  label := "DylibCommandStruct"
  size := 24
  decode bs :=
    { cmd := u32 bs 0, cmdSize := u32 bs 4, nameOffset := u32 bs 8, timestamp := u32 bs 12,
      currentVersion := u32 bs 16, compatibilityVersion := u32 bs 20 }
  fields x :=
    [("cmd", x.cmd), ("cmdsize", x.cmdSize),
     ("dylib", .group
       [("name", .group [("offset", x.nameOffset)]), ("timestamp", x.timestamp),
        ("current_version", x.currentVersion),
        ("compatibility_version", x.compatibilityVersion)])]

structure DylinkerCommand where
  (cmd cmdSize nameOffset : Nat)

instance : Record DylinkerCommand where
  label := "DylinkerCommandStruct"
  size := 12
  decode bs := { cmd := u32 bs 0, cmdSize := u32 bs 4, nameOffset := u32 bs 8 }
  fields x :=
    [("cmd", x.cmd), ("cmdsize", x.cmdSize), ("name", .group [("offset", x.nameOffset)])]

end MachImage
