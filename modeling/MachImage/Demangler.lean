/-!
Mangled names are turned into readable ones by whoever asks. A demangler is a function of the name;
without one, names stay as they are and nobody is asked.
-/
namespace MachImage

abbrev Demangler := Option (String → String)

namespace Demangler

def shown (d : Demangler) (name : String) : String :=
  match d with
  | some f => f name
  | none => name

def asked (d : Demangler) (names : List String) : List String :=
  match d with
  | some _ => names
  | none => []

end Demangler
end MachImage
