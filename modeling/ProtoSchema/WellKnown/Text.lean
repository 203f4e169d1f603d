/-!
The texts of the schemas that every file can import.
-/

namespace ProtoSchema.WellKnown

def ofLines (lines : List String) : String :=
  String.join (lines.map (· ++ "\n"))

/-- What most of the texts begin with. -/
def header : List String :=
  ["syntax = \"proto3\";",
    "",
    "package google.protobuf;",
    "",
    "option csharp_namespace = \"Google.Protobuf.WellKnownTypes\";",
    "option java_package = \"com.google.protobuf\";",
    "option java_multiple_files = true;",
    "option objc_class_prefix = \"GPB\";"]

def any : String :=
  ofLines <| header ++ [
    "option go_package = \"google.golang.org/protobuf/types/known/anypb\";",
    "option java_outer_classname = \"AnyProto\";",
    "",
    "message Any \x7b",
    "  string type_url = 1;",
    "  bytes value = 2;",
    "\x7d"]

def sourceContext : String :=
  ofLines <| header ++ [
    "option go_package = \"google.golang.org/protobuf/types/known/sourcecontextpb\";",
    "option java_outer_classname = \"SourceContextProto\";",
    "",
    "message SourceContext \x7b",
    "  string file_name = 1;",
    "\x7d"]

def typeText : String :=
  ofLines [
    "syntax = \"proto3\";",
    "",
    "package google.protobuf;",
    "",
    "import \"google/protobuf/any.proto\";",
    "import \"google/protobuf/source_context.proto\";",
    "",
    "option cc_enable_arenas = true;",
    "option csharp_namespace = \"Google.Protobuf.WellKnownTypes\";",
    "option go_package = \"google.golang.org/protobuf/types/known/typepb\";",
    "option java_package = \"com.google.protobuf\";",
    "option java_outer_classname = \"TypeProto\";",
    "option java_multiple_files = true;",
    "option objc_class_prefix = \"GPB\";",
    "",
    "message Type \x7b",
    "  string name = 1;",
    "  repeated Field fields = 2;",
    "  repeated string oneofs = 3;",
    "  repeated Option options = 4;",
    "  SourceContext source_context = 5;",
    "  Syntax syntax = 6;",
    "  string edition = 7;",
    "\x7d",
    "",
    "message Field \x7b",
    "  enum Kind \x7b",
    "    TYPE_UNKNOWN = 0;",
    "    TYPE_DOUBLE = 1;",
    "    TYPE_FLOAT = 2;",
    "    TYPE_INT64 = 3;",
    "    TYPE_UINT64 = 4;",
    "    TYPE_INT32 = 5;",
    "    TYPE_FIXED64 = 6;",
    "    TYPE_FIXED32 = 7;",
    "    TYPE_BOOL = 8;",
    "    TYPE_STRING = 9;",
    "    TYPE_GROUP = 10;",
    "    TYPE_MESSAGE = 11;",
    "    TYPE_BYTES = 12;",
    "    TYPE_UINT32 = 13;",
    "    TYPE_ENUM = 14;",
    "    TYPE_SFIXED32 = 15;",
    "    TYPE_SFIXED64 = 16;",
    "    TYPE_SINT32 = 17;",
    "    TYPE_SINT64 = 18;",
    "  \x7d",
    "",
    "  enum Cardinality \x7b",
    "    CARDINALITY_UNKNOWN = 0;",
    "    CARDINALITY_OPTIONAL = 1;",
    "    CARDINALITY_REQUIRED = 2;",
    "    CARDINALITY_REPEATED = 3;",
    "  \x7d",
    "",
    "  Kind kind = 1;",
    "  Cardinality cardinality = 2;",
    "  int32 number = 3;",
    "  string name = 4;",
    "  string type_url = 6;",
    "  int32 oneof_index = 7;",
    "  bool packed = 8;",
    "  repeated Option options = 9;",
    "  string json_name = 10;",
    "  string default_value = 11;",
    "\x7d",
    "",
    "message Enum \x7b",
    "  string name = 1;",
    "  repeated EnumValue enumvalue = 2;",
    "  repeated Option options = 3;",
    "  SourceContext source_context = 4;",
    "  Syntax syntax = 5;",
    "  string edition = 6;",
    "\x7d",
    "",
    "message EnumValue \x7b",
    "  string name = 1;",
    "  int32 number = 2;",
    "  repeated Option options = 3;",
    "\x7d",
    "",
    "message Option \x7b",
    "  string name = 1;",
    "  Any value = 2;",
    "\x7d",
    "",
    "enum Syntax \x7b",
    "  SYNTAX_PROTO2 = 0;",
    "  SYNTAX_PROTO3 = 1;",
    "  SYNTAX_EDITIONS = 2;",
    "\x7d"]

def api : String :=
  ofLines [
    "syntax = \"proto3\";",
    "",
    "package google.protobuf;",
    "",
    "import \"google/protobuf/source_context.proto\";",
    "import \"google/protobuf/type.proto\";",
    "",
    "option csharp_namespace = \"Google.Protobuf.WellKnownTypes\";",
    "option go_package = \"google.golang.org/protobuf/types/known/apipb\";",
    "option java_package = \"com.google.protobuf\";",
    "option java_outer_classname = \"ApiProto\";",
    "option java_multiple_files = true;",
    "option objc_class_prefix = \"GPB\";",
    "",
    "message Api \x7b",
    "  string name = 1;",
    "  repeated Method methods = 2;",
    "  repeated Option options = 3;",
    "  string version = 4;",
    "  SourceContext source_context = 5;",
    "  repeated Mixin mixins = 6;",
    "  Syntax syntax = 7;",
    "\x7d",
    "",
    "message Method \x7b",
    "  string name = 1;",
    "  string request_type_url = 2;",
    "  bool request_streaming = 3;",
    "  string response_type_url = 4;",
    "  bool response_streaming = 5;",
    "  repeated Option options = 6;",
    "  Syntax syntax = 7;",
    "\x7d",
    "",
    "message Mixin \x7b",
    "  string name = 1;",
    "  string root = 2;",
    "\x7d"]

def duration : String :=
  ofLines <| header ++ [
    "option cc_enable_arenas = true;",
    "option go_package = \"google.golang.org/protobuf/types/known/durationpb\";",
    "option java_outer_classname = \"DurationProto\";",
    "",
    "message Duration \x7b",
    "  int64 seconds = 1;",
    "  int32 nanos = 2;",
    "\x7d"]

def empty : String :=
  ofLines <| header ++ [
    "option cc_enable_arenas = true;",
    "option go_package = \"google.golang.org/protobuf/types/known/emptypb\";",
    "option java_outer_classname = \"EmptyProto\";",
    "",
    "message Empty \x7b\x7d"]

def fieldMask : String :=
  ofLines <| header ++ [
    "option cc_enable_arenas = true;",
    "option go_package = \"google.golang.org/protobuf/types/known/fieldmaskpb\";",
    "option java_outer_classname = \"FieldMaskProto\";",
    "",
    "message FieldMask \x7b",
    "  repeated string paths = 1;",
    "\x7d"]

def structText : String :=
  ofLines <| header ++ [
    "option cc_enable_arenas = true;",
    "option go_package = \"google.golang.org/protobuf/types/known/structpb\";",
    "option java_outer_classname = \"StructProto\";",
    "",
    "message Struct \x7b",
    "  map<string, Value> fields = 1;",
    "\x7d",
    "",
    "message Value \x7b",
    "  oneof kind \x7b",
    "    NullValue null_value = 1;",
    "    double number_value = 2;",
    "    string string_value = 3;",
    "    bool bool_value = 4;",
    "    Struct struct_value = 5;",
    "    ListValue list_value = 6;",
    "  \x7d",
    "\x7d",
    "",
    "enum NullValue \x7b",
    "  NULL_VALUE = 0;",
    "\x7d",
    "",
    "message ListValue \x7b",
    "  repeated Value values = 1;",
    "\x7d"]

def timestamp : String :=
  ofLines <| header ++ [
    "option cc_enable_arenas = true;",
    "option go_package = \"google.golang.org/protobuf/types/known/timestamppb\";",
    "option java_outer_classname = \"TimestampProto\";",
    "",
    "message Timestamp \x7b",
    "  int64 seconds = 1;",
    "  int32 nanos = 2;",
    "\x7d"]

def wrappers : String :=
  ofLines <| header ++ [
    "option cc_enable_arenas = true;",
    "option go_package = \"google.golang.org/protobuf/types/known/wrapperspb\";",
    "option java_outer_classname = \"WrappersProto\";",
    "",
    "message DoubleValue \x7b",
    "  double value = 1;",
    "\x7d",
    "",
    "message FloatValue \x7b",
    "  float value = 1;",
    "\x7d",
    "",
    "message Int64Value \x7b",
    "  int64 value = 1;",
    "\x7d",
    "",
    "message UInt64Value \x7b",
    "  uint64 value = 1;",
    "\x7d",
    "",
    "message Int32Value \x7b",
    "  int32 value = 1;",
    "\x7d",
    "",
    "message UInt32Value \x7b",
    "  uint32 value = 1;",
    "\x7d",
    "",
    "message BoolValue \x7b",
    "  bool value = 1;",
    "\x7d",
    "",
    "message StringValue \x7b",
    "  string value = 1;",
    "\x7d",
    "",
    "message BytesValue \x7b",
    "  bytes value = 1;",
    "\x7d"]

end ProtoSchema.WellKnown
