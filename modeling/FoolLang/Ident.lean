/-!
# Ident — names

A name is a letter followed by letters and digits; two names are the same when they are spelled the same.
-/
namespace FoolLang

/-- A name, by its spelling. -/
structure Ident where
  chars : List Char
  deriving DecidableEq

instance : ToString Ident := ⟨fun x => String.ofList x.chars⟩

end FoolLang
