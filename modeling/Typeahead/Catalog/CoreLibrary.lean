import Typeahead.Catalog.Metadata

namespace Typeahead.Catalog

/-- The assembly name of the core library. -/
def coreLibraryName : String := "mscorlib"

/-- An instance method with its parameters' names and types. -/
def MemberInfo.method (name result : String) (parameters : List (String × String)) : MemberInfo :=
  { name, kind := .method, typeName := result
    parameters := parameters.map fun (name, typeName) => { name, typeName } }

def MemberInfo.property (name typeName : String) : MemberInfo := { name, kind := .property, typeName }

def MemberInfo.field (name typeName : String) : MemberInfo := { name, kind := .field, typeName }

def MemberInfo.constructor (name : String) : MemberInfo := { name, kind := .constructor }

namespace CoreLibrary

def generic (parameters : List String) (m : MemberInfo) : MemberInfo :=
  { m with genericParameters := parameters }

def static (m : MemberInfo) : MemberInfo := { m with isStatic := true }

/-- A static field with a constant value. -/
def constant (m : MemberInfo) : MemberInfo := { m with isStatic := true, isLiteral := true }

/-- A static method that is called on its first argument. -/
def extension (m : MemberInfo) : MemberInfo := { m with isStatic := true, isExtension := true }

def guarded (m : MemberInfo) : MemberInfo := { m with access := .protectedAccess }

def special (m : MemberInfo) : MemberInfo := { m with isSpecial := true }

def objectInfo : TypeInfo := {
  namespaceName := some "System"
  name := "Object"
  kind := .classType
  members := [
    .method "ToString" "System.String" [],
    .method "Equals" "System.Boolean" [("obj", "System.Object")],
    .method "GetHashCode" "System.Int32" [],
    .method "GetType" "System.Type" [],
    guarded (.method "MemberwiseClone" "System.Object" []),
    guarded (.method "Finalize" "System.Void" []),
    special (.constructor ".ctor")] }

def voidInfo : TypeInfo := {
  namespaceName := some "System"
  name := "Void"
  kind := .structType }

def valueTypeInfo : TypeInfo := {
  namespaceName := some "System"
  name := "ValueType"
  kind := .classType
  baseType := some "System.Object" }

def stringInfo : TypeInfo := {
  namespaceName := some "System"
  name := "String"
  kind := .classType
  interfaces := ["System.Collections.Generic.IEnumerable<System.Char>"]
  members := [
    static (.field "Empty" "System.String"),
    .property "Length" "System.Int32",
    special (.method "get_Length" "System.Int32" []),
    .property "Chars" "System.Char",
    .method "Substring" "System.String" [("startIndex", "System.Int32")],
    .method "Substring" "System.String" [("startIndex", "System.Int32"), ("length", "System.Int32")],
    .method "ToUpper" "System.String" [],
    .method "ToLower" "System.String" [],
    .method "Trim" "System.String" [],
    .method "Split" "System.String[]" [("separator", "System.Char[]")],
    .method "Contains" "System.Boolean" [("value", "System.String")],
    .method "StartsWith" "System.Boolean" [("value", "System.String")],
    .method "EndsWith" "System.Boolean" [("value", "System.String")],
    .method "IndexOf" "System.Int32" [("value", "System.Char")],
    .method "IndexOf" "System.Int32" [("value", "System.String")],
    .method "Replace" "System.String" [("oldValue", "System.String"), ("newValue", "System.String")],
    static (.method "IsNullOrEmpty" "System.Boolean" [("value", "System.String")]),
    static (.method "Format" "System.String"
      [("format", "System.String"), ("args", "System.Object[]")]),
    static (.method "Join" "System.String"
      [("separator", "System.String"), ("values", "System.String[]")])] }

def charInfo : TypeInfo := {
  namespaceName := some "System"
  name := "Char"
  kind := .structType
  baseType := some "System.ValueType"
  members := [
    static (.method "IsDigit" "System.Boolean" [("c", "System.Char")]),
    static (.method "IsLetter" "System.Boolean" [("c", "System.Char")]),
    static (.method "ToUpper" "System.Char" [("c", "System.Char")])] }

def booleanInfo : TypeInfo := {
  namespaceName := some "System"
  name := "Boolean"
  kind := .structType
  baseType := some "System.ValueType"
  members := [
    static (.field "TrueString" "System.String"),
    static (.method "Parse" "System.Boolean" [("value", "System.String")])] }

def int32Info : TypeInfo := {
  namespaceName := some "System"
  name := "Int32"
  kind := .structType
  baseType := some "System.ValueType"
  members := [
    constant (.field "MaxValue" "System.Int32"),
    constant (.field "MinValue" "System.Int32"),
    static (.method "Parse" "System.Int32" [("s", "System.String")]),
    .method "CompareTo" "System.Int32" [("value", "System.Int32")]] }

def int64Info : TypeInfo := {
  namespaceName := some "System"
  name := "Int64"
  kind := .structType
  baseType := some "System.ValueType"
  members := [
    constant (.field "MaxValue" "System.Int64")] }

def doubleInfo : TypeInfo := {
  namespaceName := some "System"
  name := "Double"
  kind := .structType
  baseType := some "System.ValueType"
  members := [
    constant (.field "NaN" "System.Double"),
    static (.method "IsNaN" "System.Boolean" [("d", "System.Double")])] }

def typeInfo : TypeInfo := {
  namespaceName := some "System"
  name := "Type"
  kind := .classType
  members := [
    .property "Name" "System.String",
    .property "FullName" "System.String",
    .property "Namespace" "System.String"] }

def arrayInfo : TypeInfo := {
  namespaceName := some "System"
  name := "Array"
  kind := .classType
  members := [
    .property "Length" "System.Int32",
    .property "Rank" "System.Int32",
    .method "Clone" "System.Object" [],
    static (.method "Sort" "System.Void" [("array", "System.Array")])] }

def exceptionInfo : TypeInfo := {
  namespaceName := some "System"
  name := "Exception"
  kind := .classType
  members := [
    .property "Message" "System.String",
    .property "StackTrace" "System.String",
    .property "InnerException" "System.Exception"] }

def eventHandlerInfo : TypeInfo := {
  namespaceName := some "System"
  name := "EventHandler"
  kind := .delegateType }

def funcInfo : TypeInfo := {
  namespaceName := some "System"
  name := "Func"
  kind := .delegateType
  genericParameters := ["T", "TResult"]
  members := [
    .method "Invoke" "TResult" [("arg", "T")]] }

def consoleInfo : TypeInfo := {
  namespaceName := some "System"
  name := "Console"
  kind := .classType
  members := [
    static (.property "Out" "System.IO.TextWriter"),
    static (.property "Title" "System.String"),
    static (.method "WriteLine" "System.Void" []),
    static (.method "WriteLine" "System.Void" [("value", "System.String")]),
    static (.method "WriteLine" "System.Void" [("value", "System.Object")]),
    static (.method "Write" "System.Void" [("value", "System.String")]),
    static (.method "ReadLine" "System.String" [])] }

def mathInfo : TypeInfo := {
  namespaceName := some "System"
  name := "Math"
  kind := .classType
  members := [
    constant (.field "PI" "System.Double"),
    constant (.field "E" "System.Double"),
    static (.method "Abs" "System.Int32" [("value", "System.Int32")]),
    static (.method "Abs" "System.Double" [("value", "System.Double")]),
    static (.method "Max" "System.Int32" [("a", "System.Int32"), ("b", "System.Int32")]),
    static (.method "Min" "System.Int32" [("a", "System.Int32"), ("b", "System.Int32")]),
    static (.method "Sqrt" "System.Double" [("d", "System.Double")])] }

def dateTimeInfo : TypeInfo := {
  namespaceName := some "System"
  name := "DateTime"
  kind := .structType
  baseType := some "System.ValueType"
  members := [
    static (.property "Now" "System.DateTime"),
    static (.property "Today" "System.DateTime"),
    .property "Year" "System.Int32",
    .property "Month" "System.Int32",
    .property "Day" "System.Int32",
    .method "AddDays" "System.DateTime" [("value", "System.Double")]] }

def environmentInfo : TypeInfo := {
  namespaceName := some "System"
  name := "Environment"
  kind := .classType
  members := [
    static (.property "NewLine" "System.String"),
    static (.property "MachineName" "System.String"),
    static (.method "GetFolderPath" "System.String" [("folder", "SpecialFolder")])] }

def environmentSpecialFolderInfo : TypeInfo := {
  namespaceName := some "System"
  name := "Environment+SpecialFolder"
  kind := .enumType
  members := [
    constant (.field "Desktop" "System.Environment+SpecialFolder"),
    constant (.field "MyDocuments" "System.Environment+SpecialFolder")] }

def iEnumerableInfo : TypeInfo := {
  namespaceName := some "System.Collections.Generic"
  name := "IEnumerable"
  kind := .interfaceType
  genericParameters := ["T"]
  members := [
    .method "GetEnumerator" "System.Collections.Generic.IEnumerator<T>" []] }

def iEnumeratorInfo : TypeInfo := {
  namespaceName := some "System.Collections.Generic"
  name := "IEnumerator"
  kind := .interfaceType
  genericParameters := ["T"]
  members := [
    .property "Current" "T",
    .method "MoveNext" "System.Boolean" []] }

def iCollectionInfo : TypeInfo := {
  namespaceName := some "System.Collections.Generic"
  name := "ICollection"
  kind := .interfaceType
  interfaces := ["System.Collections.Generic.IEnumerable<T>"]
  genericParameters := ["T"]
  members := [
    .property "Count" "System.Int32",
    .method "Add" "System.Void" [("item", "T")],
    .method "Clear" "System.Void" [],
    .method "Contains" "System.Boolean" [("item", "T")]] }

def iListInfo : TypeInfo := {
  namespaceName := some "System.Collections.Generic"
  name := "IList"
  kind := .interfaceType
  interfaces := ["System.Collections.Generic.ICollection<T>"]
  genericParameters := ["T"]
  members := [
    .property "Item" "T",
    .method "IndexOf" "System.Int32" [("item", "T")],
    .method "RemoveAt" "System.Void" [("index", "System.Int32")]] }

def listInfo : TypeInfo := {
  namespaceName := some "System.Collections.Generic"
  name := "List"
  kind := .classType
  interfaces := ["System.Collections.Generic.IList<T>"]
  genericParameters := ["T"]
  members := [
    .property "Count" "System.Int32",
    .property "Capacity" "System.Int32",
    .property "Item" "T",
    .method "Add" "System.Void" [("item", "T")],
    .method "AddRange" "System.Void" [("collection", "System.Collections.Generic.IEnumerable<T>")],
    .method "Remove" "System.Boolean" [("item", "T")],
    .method "Clear" "System.Void" [],
    .method "Contains" "System.Boolean" [("item", "T")],
    .method "IndexOf" "System.Int32" [("item", "T")],
    .method "Insert" "System.Void" [("index", "System.Int32"), ("item", "T")],
    .method "Sort" "System.Void" [],
    .method "ToArray" "T[]" [],
    .method "GetEnumerator" "System.Collections.Generic.IEnumerator<T>" []] }

def dictionaryInfo : TypeInfo := {
  namespaceName := some "System.Collections.Generic"
  name := "Dictionary"
  kind := .classType
  interfaces := ["System.Collections.Generic.IEnumerable<System.Collections.Generic.KeyValuePair<TKey, TValue>>"]
  genericParameters := ["TKey", "TValue"]
  members := [
    .property "Count" "System.Int32",
    .property "Item" "TValue",
    .property "Keys" "System.Collections.Generic.ICollection<TKey>",
    .property "Values" "System.Collections.Generic.ICollection<TValue>",
    .method "Add" "System.Void" [("key", "TKey"), ("value", "TValue")],
    .method "ContainsKey" "System.Boolean" [("key", "TKey")],
    .method "Remove" "System.Boolean" [("key", "TKey")],
    .method "TryGetValue" "System.Boolean" [("key", "TKey"), ("value", "TValue")]] }

def keyValuePairInfo : TypeInfo := {
  namespaceName := some "System.Collections.Generic"
  name := "KeyValuePair"
  kind := .structType
  baseType := some "System.ValueType"
  genericParameters := ["TKey", "TValue"]
  members := [
    .property "Key" "TKey",
    .property "Value" "TValue"] }

def enumerableInfo : TypeInfo := {
  namespaceName := some "System.Linq"
  name := "Enumerable"
  kind := .classType
  isExtensionContainer := true
  members := [
    extension (generic ["TSource"] (.method "Where" "System.Collections.Generic.IEnumerable<TSource>"
      [("source", "System.Collections.Generic.IEnumerable<TSource>"),
       ("predicate", "System.Func<TSource, System.Boolean>")])),
    extension (generic ["TSource", "TResult"] (.method "Select" "System.Collections.Generic.IEnumerable<TResult>"
      [("source", "System.Collections.Generic.IEnumerable<TSource>"),
       ("selector", "System.Func<TSource, TResult>")])),
    extension (generic ["TSource"] (.method "First" "TSource"
      [("source", "System.Collections.Generic.IEnumerable<TSource>")])),
    extension (generic ["TSource"] (.method "FirstOrDefault" "TSource"
      [("source", "System.Collections.Generic.IEnumerable<TSource>")])),
    extension (generic ["TSource"] (.method "Count" "System.Int32"
      [("source", "System.Collections.Generic.IEnumerable<TSource>")])),
    extension (generic ["TSource"] (.method "Any" "System.Boolean"
      [("source", "System.Collections.Generic.IEnumerable<TSource>")])),
    extension (generic ["TSource"] (.method "ToList" "System.Collections.Generic.List<TSource>"
      [("source", "System.Collections.Generic.IEnumerable<TSource>")])),
    extension (generic ["TSource"] (.method "ToArray" "TSource[]"
      [("source", "System.Collections.Generic.IEnumerable<TSource>")])),
    extension (generic ["TSource", "TKey"] (.method "OrderBy" "System.Collections.Generic.IEnumerable<TSource>"
      [("source", "System.Collections.Generic.IEnumerable<TSource>"),
       ("keySelector", "System.Func<TSource, TKey>")]))] }

def stringBuilderInfo : TypeInfo := {
  namespaceName := some "System.Text"
  name := "StringBuilder"
  kind := .classType
  members := [
    .property "Length" "System.Int32",
    .property "Capacity" "System.Int32",
    .method "Append" "System.Text.StringBuilder" [("value", "System.String")],
    .method "Append" "System.Text.StringBuilder" [("value", "System.Char")],
    .method "AppendLine" "System.Text.StringBuilder" [("value", "System.String")],
    .method "Insert" "System.Text.StringBuilder"
      [("index", "System.Int32"), ("value", "System.String")],
    .method "Clear" "System.Text.StringBuilder" []] }

def textWriterInfo : TypeInfo := {
  namespaceName := some "System.IO"
  name := "TextWriter"
  kind := .classType
  members := [
    .property "NewLine" "System.String",
    .method "Write" "System.Void" [("value", "System.String")],
    .method "WriteLine" "System.Void" [("value", "System.String")],
    .method "Flush" "System.Void" []] }

def fileInfo : TypeInfo := {
  namespaceName := some "System.IO"
  name := "File"
  kind := .classType
  members := [
    static (.method "Exists" "System.Boolean" [("path", "System.String")]),
    static (.method "ReadAllText" "System.String" [("path", "System.String")]),
    static (.method "WriteAllText" "System.Void"
      [("path", "System.String"), ("contents", "System.String")])] }

def types : List TypeInfo := [
  objectInfo, voidInfo, valueTypeInfo, stringInfo, charInfo, booleanInfo, int32Info, int64Info,
  doubleInfo, typeInfo, arrayInfo, exceptionInfo, eventHandlerInfo, funcInfo, consoleInfo,
  mathInfo, dateTimeInfo, environmentInfo, environmentSpecialFolderInfo, iEnumerableInfo,
  iEnumeratorInfo, iCollectionInfo, iListInfo, listInfo, dictionaryInfo, keyValuePairInfo,
  enumerableInfo, stringBuilderInfo, textWriterInfo, fileInfo]

end CoreLibrary

/-- The core library. -/
def coreLibrary : Assembly := { name := coreLibraryName, types := CoreLibrary.types }

end Typeahead.Catalog
