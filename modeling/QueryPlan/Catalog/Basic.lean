namespace QueryPlan

inductive DataType where
  | string | text | uuid | boolean | integer | bigint | float | double | decimal
  | date | time | timestamp | json | enumeration
deriving DecidableEq

namespace DataType

def name : DataType → String
  | .string => "STRING"
  | .text => "TEXT"
  | .uuid => "UUID"
  | .boolean => "BOOLEAN"
  | .integer => "INTEGER"
  | .bigint => "BIGINT"
  | .float => "FLOAT"
  | .double => "DOUBLE"
  | .decimal => "DECIMAL"
  | .date => "DATE"
  | .time => "TIME"
  | .timestamp => "TIMESTAMP"
  | .json => "JSON"
  | .enumeration => "ENUM"

def all : List DataType :=
  [.string, .text, .uuid, .boolean, .integer, .bigint, .float, .double, .decimal,
    .date, .time, .timestamp, .json, .enumeration]

/-- A name is the name of one type; `DATETIME` is a second name of `TIMESTAMP`. -/
def ofName? (s : String) : Option DataType :=
  if s = "DATETIME" then some .timestamp else all.find? (·.name = s)

/-- Numbers and points in time can be sorted by. -/
def isSortable : DataType → Bool
  | .integer | .bigint | .float | .double | .decimal | .date | .time | .timestamp => true
  | _ => false

/-- The GraphQL scalar that shows values of the type. -/
def scalarName : DataType → String
  | .boolean => "Boolean"
  | .integer => "Int"
  | .float | .double => "Float"
  | .date | .timestamp => "Date"
  | .json => "JSON"
  | .string | .text | .uuid | .time | .bigint | .decimal | .enumeration => "String"

end DataType

structure Field where
  name : String
  column : Option String
  dataType : DataType
  allowNull : Bool
  primaryKey : Bool
  comment : Option String
deriving DecidableEq

def Field.storageName (f : Field) : String := f.column.getD f.name

inductive AssociationKind where
  | belongsTo | hasOne | hasMany | belongsToMany
deriving DecidableEq

namespace AssociationKind

def name : AssociationKind → String
  | .belongsTo => "BelongsTo"
  | .hasOne => "HasOne"
  | .hasMany => "HasMany"
  | .belongsToMany => "BelongsToMany"

def all : List AssociationKind := [.belongsTo, .hasOne, .hasMany, .belongsToMany]

def ofName? (s : String) : Option AssociationKind := all.find? (·.name = s)

def isToMany : AssociationKind → Bool
  | .hasMany | .belongsToMany => true
  | .belongsTo | .hasOne => false

end AssociationKind

structure Association where
  name : String
  kind : AssociationKind
  target : String
  foreignKey : String
  sourceKey : String
  targetKey : String
deriving DecidableEq

/-- The field of the declaring model that the join reads. -/
def Association.sourceColumn (a : Association) : String :=
  match a.kind with
  | .belongsTo => a.foreignKey
  | .hasOne | .hasMany | .belongsToMany => a.sourceKey

structure Model where
  name : String
  tableName : Option String
  comment : Option String
  fields : List Field
  associations : List Association
deriving DecidableEq

namespace Model

def field? (m : Model) (name : String) : Option Field := m.fields.find? (·.name = name)

def association? (m : Model) (name : String) : Option Association :=
  m.associations.find? (·.name = name)

def fieldNames (m : Model) : List String := m.fields.map (·.name)

def primaryKey? (m : Model) : Option Field := m.fields.find? (·.primaryKey)

end Model

end QueryPlan
