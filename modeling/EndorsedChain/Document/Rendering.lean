import EndorsedChain.Document.Layout

/-!
# Writing records

One line for each field, in the order of the layout. Decimal numbers are quoted, so that they are
read back exactly.
-/

namespace EndorsedChain

variable {σ : Type}

def Decimal.quoted (a : Decimal) : String := "\"" ++ toString a ++ "\""

def Field.lines (s : σ) (name : String) : Field σ → List String
  | .nat _ get _ => [name ++ ": " ++ toString (get s)]
  | .optionalNat _ get _ =>
    match get s with
    | some n => [name ++ ": " ++ toString n]
    | none => [name ++ ": ~"]
  | .flag get _ => [name ++ (if get s then ": true" else ": false")]
  | .decimal get _ => [name ++ ": " ++ (get s).quoted]
  | .decimals get _ =>
    match get s with
    | [] => [name ++ ": []"]
    | ds => (name ++ ":") :: ds.map fun d => "  - " ++ d.quoted

def fieldLines (s : σ) (fields : List (String × Field σ)) : List String :=
  fields.flatMap fun (name, f) => f.lines s name

/-- The document of a record. -/
def Layout.toYaml (l : Layout σ) (s : σ) : String :=
  let groups := l.groups.flatMap fun (name, fields) =>
    (name ++ ":") :: (fieldLines s fields).map ("  " ++ ·)
  String.join (("---" :: fieldLines s l.fields ++ groups).map (· ++ "\n"))

end EndorsedChain
