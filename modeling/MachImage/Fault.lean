import MachImage.Text.Numeral
/-!
Why a question has no answer. A fault is a cause with the numbers that describe it; `message` is
the one place that words it. `FormatFault` is for input of another kind, `CorruptFault` for an
image that breaks a bound it declares, `EncodingFault` for a type encoding, `MisuseFault` for a
question that was put wrongly, or where there is no room to answer it.
-/
namespace MachImage

inductive FormatFault where
  | fileTooSmall
  | noArchitectures
  | sliceTooSmall
  | bigEndian
  | unknownMagic (magic : Nat)
  deriving DecidableEq

inductive CorruptFault where
  | archiveHeaderTruncated
  | architectureOutside (index offset : Nat)
  | sliceOutside (start stop size : Nat)
  | headerTruncated
  | commandsOutside (stop : Nat)
  | commandOutside (index offset : Nat)
  | commandTooSmall (index offset size : Nat)
  | commandOverrun (index offset size : Nat)
  | sectionsOverrun (segment : String) (count size : Nat)
  | toolsOverrun (offset : Nat)
  | functionStartsOutside (offset size : Nat)
  | streamOutside (stream : String) (offset size : Nat)
  | repeatCount (count : Nat)
  deriving DecidableEq

inductive Missing where
  | symbolTable
  | dynamicSymbolTable
  | linkInfo
  | functionStarts
  deriving DecidableEq

inductive EncodingFault where
  | unexpectedEnd
  | tooDeep
  | trailingData
  | openClassName
  | openBlock
  | openStruct
  | openUnion
  | openFieldName
  | arrayCount
  | arrayClose
  | bitfieldWidth
  deriving DecidableEq

inductive MisuseFault where
  | negativeUnsigned (value : Int)
  | segmentIndex (index : Int) (count : Nat)
  | minimumLength (length : Int)
  | noLayout (label : String)
  | noElement (kind : String)
  | numeral (cause : Numeral.Fault)
  | wideNumber
  | stackExhausted

inductive Fault where
  | format (cause : FormatFault)
  | corrupt (cause : CorruptFault)
  | outOfBounds (offset size : Int) (regionSize : Nat)
  | unterminated (offset : Int)
  | unmapped (address : Int)
  | noRuntimeData
  | noConstantData
  | missing (what : Missing)
  | opcode (byte : UInt8) (offset : Int)
  | unsignedLeb (offset : Int)
  | signedLeb (offset : Int)
  | trieNode (offset : Int)
  | exportInfo (offset : Int)
  | encoding (cause : EncodingFault) (source : String) (position : Nat)
  | misuse (cause : MisuseFault)
  | repetition
  | zeroDivisor
  | notAWord (value : Int)

def FormatFault.message : FormatFault → String
  | .fileTooSmall => "File is too small to contain a magic"
  | .noArchitectures => "FAT archive declares no architectures"
  | .sliceTooSmall => "Slice is too small to contain a Mach-O magic"
  | .bigEndian => "Big-endian Mach-O slices are unsupported"
  | .unknownMagic magic => s!"Unsupported Mach-O magic {Hex.number magic}"

def CorruptFault.message : CorruptFault → String
  | .archiveHeaderTruncated => "FAT header is truncated"
  | .architectureOutside index offset =>
    s!"fat_arch #{index} at {Hex.number offset} lies outside the file"
  | .sliceOutside start stop size =>
    s!"Slice [{Hex.number start} - {Hex.number stop}] lies outside the file ({Hex.number size})"
  | .headerTruncated => "Mach-O header is truncated"
  | .commandsOutside stop =>
    s!"Load commands end at {Hex.number stop}, past the end of the slice"
  | .commandOutside index offset =>
    s!"Load command #{index} at {Hex.number offset} lies past the end of the load commands"
  | .commandTooSmall index offset size =>
    s!"Load command #{index} at {Hex.number offset} has invalid cmdsize {size}"
  | .commandOverrun index offset size =>
    s!"Load command #{index} at {Hex.number offset} (cmdsize {Hex.number size}) " ++
      "overruns sizeofcmds"
  | .sectionsOverrun segment count size =>
    s!"Segment {segment} declares {count} sections, which overrun its cmdsize {Hex.number size}"
  | .toolsOverrun offset =>
    s!"LC_BUILD_VERSION at {Hex.number offset} declares more tools than fit its cmdsize"
  | .functionStartsOutside offset size =>
    s!"Function starts data [{Hex.number offset} +{Hex.number size}] lies outside the binary"
  | .streamOutside stream offset size =>
    s!"{stream} data [{Hex.number offset} +{Hex.number size}] lies outside the binary"
  | .repeatCount count =>
    s!"Opcode repeat count {count} exceeds the number of pointers in the image"

def Missing.message : Missing → String
  | .symbolTable => "Binary has no LC_SYMTAB"
  | .dynamicSymbolTable => "Binary has no LC_DYSYMTAB"
  | .linkInfo => "Binary has no LC_DYLD_INFO or LC_DYLD_INFO_ONLY"
  | .functionStarts => "Binary has no LC_FUNCTION_STARTS"

def EncodingFault.message : EncodingFault → String
  | .unexpectedEnd => "Unexpected end of encoding"
  | .tooDeep => "Type nesting is too deep"
  | .trailingData => "Unexpected data after type"
  | .openClassName => "Unterminated class name"
  | .openBlock => "Unterminated block signature"
  | .openStruct => "Unterminated struct"
  | .openUnion => "Unterminated union"
  | .openFieldName => "Unterminated field name"
  | .arrayCount => "Array is missing its element count"
  | .arrayClose => "Array is missing its closing bracket"
  | .bitfieldWidth => "Bitfield is missing its width"

def MisuseFault.message : MisuseFault → String
  | .negativeUnsigned value => s!"Cannot ULEB128-encode a negative value: {value}"
  | .segmentIndex index count => s!"segment_index ({index}) out of bounds ({count})"
  | .minimumLength length => s!"min_length must be positive, got {length}"
  | .noLayout label => s!"{label} does not define a backing struct"
  | .noElement kind => s!"{kind} type has no element type"
  | .numeral cause => cause.message
  | .wideNumber => Numeral.tooWide
  | .stackExhausted => "maximum recursion depth exceeded"

def Fault.message : Fault → String
  | .format cause => cause.message
  | .corrupt cause => cause.message
  | .outOfBounds offset size regionSize =>
    s!"Read of {size} bytes at offset {Hex.number offset} " ++
      s!"exceeds region of {Hex.number regionSize} bytes"
  | .unterminated offset => s!"No NUL terminator for string at offset {Hex.number offset}"
  | .unmapped address =>
    s!"Could not map virtual address {Hex.number address} to a file offset"
  | .noRuntimeData => "Binary contains no Objective-C metadata sections"
  | .noConstantData => "Binary has an __objc_classlist but no __objc_const"
  | .missing what => what.message
  | .opcode byte offset =>
    s!"Invalid dyld opcode {Hex.number byte.toNat} at offset {Hex.number offset}"
  | .unsignedLeb offset => s!"Error decoding ULEB128 at offset {Hex.number offset}"
  | .signedLeb offset => s!"Error decoding SLEB128 at offset {Hex.number offset}"
  | .trieNode offset => s!"Export trie walk went out of bounds at offset {Hex.number offset}"
  | .exportInfo offset => s!"Invalid export info at trie offset {Hex.number offset}"
  | .encoding cause source position =>
    s!"{cause.message} at index {position} of {Quoted.text source}"
  | .misuse cause => cause.message
  | .repetition => "the repetition number is too large"
  | .zeroDivisor => "integer division or modulo by zero"
  | .notAWord value =>
    if 0 ≤ value ∧ value < 0x10000000000000000 then "'I' format requires 0 <= number <= 4294967295"
    else "argument out of range"

end MachImage
