/-!
The built-in scalar types.
-/

namespace ApiSchema

inductive Primitive where
  | string | int | uint | float | bigint | bool | bytes | money | decimal | date | datetime
  | cpf | cnpj | email | html | url | uuid | hex | base64 | xml | json | void
  deriving DecidableEq, Repr, Inhabited

namespace Primitive

def all : List Primitive :=
  [.string, .int, .uint, .float, .bigint, .bool, .bytes, .money, .decimal, .date, .datetime,
    .cpf, .cnpj, .email, .html, .url, .uuid, .hex, .base64, .xml, .json, .void]

def name : Primitive → String
  | .string => "string"
  | .int => "int"
  | .uint => "uint"
  | .float => "float"
  | .bigint => "bigint"
  | .bool => "bool"
  | .bytes => "bytes"
  | .money => "money"
  | .decimal => "decimal"
  | .date => "date"
  | .datetime => "datetime"
  | .cpf => "cpf"
  | .cnpj => "cnpj"
  | .email => "email"
  | .html => "html"
  | .url => "url"
  | .uuid => "uuid"
  | .hex => "hex"
  | .base64 => "base64"
  | .xml => "xml"
  | .json => "json"
  | .void => "void"

def ofName? (text : String) : Option Primitive := all.find? (·.name == text)

theorem ofName?_name (p : Primitive) : ofName? p.name = some p := by
  cases p <;> decide

theorem name_of_ofName? {text : String} {p : Primitive} (h : ofName? text = some p) :
    p.name = text := by
  simpa using List.find?_some h

theorem name_inj {p q : Primitive} (h : p.name = q.name) : p = q := by
  have same := ofName?_name p
  rw [h, ofName?_name q] at same
  exact (Option.some.inj same).symm

end Primitive

end ApiSchema
