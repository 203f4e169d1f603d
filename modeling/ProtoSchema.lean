import ProtoSchema.Main
import ProtoSchema.Proofs.Recovery
import ProtoSchema.Proofs.Compiler.Order
import ProtoSchema.Proofs.Layout
import ProtoSchema.Proofs.Positions
import ProtoSchema.Proofs.Compiler.History
import ProtoSchema.Proofs.Nesting
import ProtoSchema.Proofs.Progress
import ProtoSchema.Proofs.Link.Again
import ProtoSchema.Proofs.Json.Lossless
import ProtoSchema.Proofs.Link.Nearest
import ProtoSchema.Proofs.Compiler.Asked
import ProtoSchema.Proofs.Text.Literals
import ProtoSchema.Proofs.OptionValues
import ProtoSchema.Proofs.Junk
import ProtoSchema.Proofs.TooDeep
import ProtoSchema.Proofs.Link.MapFields
import ProtoSchema.Proofs.RustTypes.Names
import ProtoSchema.Proofs.RustTypes.Text
import ProtoSchema.Proofs.Confinement
