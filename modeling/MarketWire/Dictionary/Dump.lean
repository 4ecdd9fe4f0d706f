import MarketWire.Dictionary

/-! The text that shows all of a dictionary: its tags, its definitions and its tables. -/

set_option autoImplicit false

namespace MarketWire

/-- Tags without a text are left out. -/
def dumpTag (tag : String × String) : String :=
  if tag.2.isEmpty then "" else tag.1 ++ ": " ++ tag.2 ++ "\n"

def FieldDefinition.dump (field : FieldDefinition) : String :=
  "Fid=" ++ toString field.fid ++ " " ++ quoted field.acronym ++ " " ++ quoted field.longName
    ++ " Type=" ++ toString field.fieldType.code ++ " RippleTo=" ++ toString field.rippleTo
    ++ " Len=" ++ toString field.length ++ " EnumLen=" ++ toString field.enumLength
    ++ " RwfType=" ++ toString field.wireType.code ++ " RwfLen=" ++ toString field.wireLength
    ++ "\n"

def EnumTable.dump (table : EnumTable) : String :=
  let reference (fid : Int16) : String := "(Referenced by Fid " ++ toString fid ++ ")\n"
  let row (entry : UInt16 × EnumLabel) : String :=
    "value: " ++ toString entry.1 ++ " display: \""
      ++ String.ofList (Utf8.decodeLossy entry.2.display) ++ "\" meaning: \"" ++ entry.2.meaning
      ++ "\"\n"
  "\nEnum Type Table:\n" ++ String.join (table.fids.map reference)
    ++ String.join (table.toList.map row)

namespace Dictionary

def dump (dictionary : Dictionary) : String :=
  let fields := dictionary.fieldTags
  let enums := dictionary.enumTags
  let tags :=
    [("Version", fields.version), ("Filename", fields.filename), ("Desc", fields.description),
     ("Build", fields.build), ("Date", fields.date), ("RT_Version", enums.rtVersion),
     ("DT_Version", enums.dtVersion)]
  String.join (tags.map dumpTag)
    ++ "DictionaryId: " ++ toString dictionary.id
    ++ "\nEntries: " ++ toString dictionary.size
    ++ "\nEnumTables: " ++ toString dictionary.tables.size ++ "\n"
    ++ String.join (dictionary.toList.map FieldDefinition.dump)
    ++ String.join (dictionary.tables.toList.map EnumTable.dump)

end Dictionary

end MarketWire
