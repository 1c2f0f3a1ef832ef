import MachImage.Record.Basic
/-!
The records of runtime metadata: Objective-C classes, categories, protocols and their lists, and
Swift type descriptors. Pointers are addresses in memory.
-/
namespace MachImage
open Record

/-- A class as the runtime holds it. The two low bits of `data` are flags. -/
structure ClassRecord where
  (metaclass superclass cache vtable data : Nat)

instance : Record ClassRecord where
  label := "ObjcClassRawStruct"
  size := 40
  decode bs :=
    { metaclass := u64 bs 0, superclass := u64 bs 8, cache := u64 bs 16, vtable := u64 bs 24,
      data := u64 bs 32 }
  fields x :=
    [("metaclass", x.metaclass), ("superclass", x.superclass), ("cache", x.cache),
     ("vtable", x.vtable), ("data", x.data)]

structure ClassData where
  (flags instanceStart instanceSize reserved ivarLayout name methods : Nat)
  (protocols ivars weakIvarLayout properties : Nat)

instance : Record ClassData where
  label := "ObjcDataRawStruct"
  size := 72
  decode bs :=
    { flags := u32 bs 0, instanceStart := u32 bs 4, instanceSize := u32 bs 8,
      reserved := u32 bs 12, ivarLayout := u64 bs 16, name := u64 bs 24, methods := u64 bs 32,
      protocols := u64 bs 40, ivars := u64 bs 48, weakIvarLayout := u64 bs 56,
      properties := u64 bs 64 }
  fields x :=
    [("flags", x.flags), ("instance_start", x.instanceStart), ("instance_size", x.instanceSize),
     ("reserved", x.reserved), ("ivar_layout", x.ivarLayout), ("name", x.name),
     ("base_methods", x.methods), ("base_protocols", x.protocols), ("ivars", x.ivars),
     ("weak_ivar_layout", x.weakIvarLayout), ("base_properties", x.properties)]

structure CategoryRecord where
  (name baseClass instanceMethods classMethods protocols instanceProperties : Nat)

instance : Record CategoryRecord where
  label := "ObjcCategoryRawStruct"
  size := 48
  decode bs :=
    { name := u64 bs 0, baseClass := u64 bs 8, instanceMethods := u64 bs 16,
      classMethods := u64 bs 24, protocols := u64 bs 32, instanceProperties := u64 bs 40 }
  fields x :=
    [("name", x.name), ("base_class", x.baseClass), ("instance_methods", x.instanceMethods),
     ("class_methods", x.classMethods), ("base_protocols", x.protocols),
     ("instance_properties", x.instanceProperties)]

structure ProtocolRecord where
  (isa name protocols instanceMethods classMethods optionalInstanceMethods : Nat)
  (optionalClassMethods instanceProperties size flags : Nat)

instance : Record ProtocolRecord where
  label := "ObjcProtocolRawStruct"
  size := 72
  decode bs :=
    { isa := u64 bs 0, name := u64 bs 8, protocols := u64 bs 16, instanceMethods := u64 bs 24,
      classMethods := u64 bs 32, optionalInstanceMethods := u64 bs 40,
      optionalClassMethods := u64 bs 48, instanceProperties := u64 bs 56, size := u32 bs 64,
      flags := u32 bs 68 }
  fields x :=
    [("isa", x.isa), ("name", x.name), ("protocols", x.protocols),
     ("required_instance_methods", x.instanceMethods),
     ("required_class_methods", x.classMethods),
     ("optional_instance_methods", x.optionalInstanceMethods),
     ("optional_class_methods", x.optionalClassMethods),
     ("instance_properties", x.instanceProperties), ("size", x.size), ("flags", x.flags)]

structure ProtocolListHeader where
  count : Nat

instance : Record ProtocolListHeader where
  label := "ObjcProtocolListStruct"
  size := 8
  decode bs := { count := u64 bs 0 }
  fields x := [("count", x.count)]

structure EntryListHeader where
  (entrySizeAndFlags count : Nat)

instance : Record EntryListHeader where
  label := "ObjcEntryListHeaderStruct"
  size := 8
  decode bs := { entrySizeAndFlags := u32 bs 0, count := u32 bs 4 }
  fields x := [("entsize_and_flags", x.entrySizeAndFlags), ("count", x.count)]

structure MethodEntry where
  (name signature implementation : Nat)

instance : Record MethodEntry where
  label := "ObjcMethodStruct"
  size := 24
  decode bs := { name := u64 bs 0, signature := u64 bs 8, implementation := u64 bs 16 }
  fields x :=
    [("name", x.name), ("signature", x.signature), ("implementation", x.implementation)]

structure IvarEntry where
  (offsetPointer name type alignment size : Nat)

instance : Record IvarEntry where
  label := "ObjcIvarStruct"
  size := 32
  decode bs :=
    { offsetPointer := u64 bs 0, name := u64 bs 8, type := u64 bs 16, alignment := u32 bs 24,
      size := u32 bs 28 }
  fields x :=
    [("offset_ptr", x.offsetPointer), ("name", x.name), ("type", x.type),
     ("alignment_raw", x.alignment), ("size", x.size)]

structure PropertyEntry where
  (name attributes : Nat)

instance : Record PropertyEntry where
  label := "ObjcPropertyStruct"
  size := 16
  decode bs := { name := u64 bs 0, attributes := u64 bs 8 }
  fields x := [("name", x.name), ("attributes", x.attributes)]

/-- What class, struct and enum descriptors begin with. Each offset counts from its own address. -/
structure TypeDescriptor where
  flags : Nat
  (parent name accessFunction fields : Int)

instance : Record TypeDescriptor where
  label := "SwiftTypeContextDescriptorStruct"
  size := 20
  decode bs :=
    { flags := u32 bs 0, parent := i32 bs 4, name := i32 bs 8, accessFunction := i32 bs 12,
      fields := i32 bs 16 }
  fields x :=
    [("flags", x.flags), ("parent", x.parent), ("name", x.name),
     ("access_function", x.accessFunction), ("fields", x.fields)]

structure RelativeMethodEntry where
  (name signature implementation : Int)

instance : Record RelativeMethodEntry where
  label := "ObjcMethodStruct"
  size := 12
  decode bs := { name := i32 bs 0, signature := i32 bs 4, implementation := i32 bs 8 }
  fields x :=
    [("name", x.name), ("signature", x.signature), ("implementation", x.implementation)]

end MachImage
