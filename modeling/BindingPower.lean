import BindingPower.Main
import BindingPower.Pattern.Reader
import BindingPower.Proofs.Grouping
import BindingPower.Proofs.C.Yield
import BindingPower.Proofs.C.Statement
import BindingPower.Proofs.C.Operand
import BindingPower.Proofs.Ebnf.Language
import BindingPower.Proofs.Places
import BindingPower.Proofs.Registration
import BindingPower.Proofs.LexicalError
import BindingPower.Proofs.Calls
import BindingPower.Proofs.Sources
import BindingPower.Proofs.Guards
import BindingPower.Proofs.EndOfInput
import BindingPower.Proofs.Surfacing
import BindingPower.Proofs.Tiling
import BindingPower.Proofs.Respacing
import BindingPower.Proofs.C.Longest
import BindingPower.Proofs.Caret
import BindingPower.Proofs.Threshold
import BindingPower.Proofs.Arithmetic.Depth
import BindingPower.Proofs.Ebnf.Definition
import BindingPower.Proofs.Lines
import BindingPower.Proofs.Colour
import BindingPower.Proofs.Outline
import BindingPower.Proofs.TokenOrder
import BindingPower.Proofs.Registration.Bulk
import BindingPower.Proofs.Discovery
import BindingPower.Proofs.Balance
import BindingPower.Proofs.CommandLine
