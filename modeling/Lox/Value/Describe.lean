import Lox.Store
import Lox.Text

namespace Lox

open Text

def Callable.describe : Callable → String
  | native f => "NativeFunction(" ++ f.name ++ "/" ++ toString f.arity ++ ")"
  | function _ c =>
    record "LoxFunction"
      [("name", quoted c.name), ("arity", toString c.arity),
        ("is_initializer", if c.isInitializer then "true" else "false")]
  | cls c =>
    record "LoxClass"
      [("name", quoted c.name),
        ("superclass", match c.superclass with
          | some s => "Some(" ++ quoted s.name ++ ")"
          | none => "None"),
        ("methods", list (c.methods.names.map quoted))]

def Object.describe (o : Object) : String :=
  record "Instance"
    [("class", quoted o.cls.name), ("fields", list (o.fields.names.map quoted))]

end Lox
