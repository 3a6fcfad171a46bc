import Bitfield.Buffer.Access
import Bitfield.Buffer.InPlace
import Bitfield.Register.Access
import Bitfield.Layout
import Bitfield.View
import Bitfield.Proofs.Register.Interval
import Bitfield.Proofs.Wire.Filling
import Bitfield.Proofs.Wire.Delivery
import Bitfield.Proofs.Wire.Segments
import Bitfield.Proofs.Wire.Transfer
import Bitfield.Proofs.Wire.Requests
import Bitfield.Proofs.IntType
import Bitfield.Proofs.Register.Codec
import Bitfield.Proofs.Wire.Justified
import Bitfield.Proofs.Register.Agreement
import Bitfield.Proofs.Form
import Bitfield.Proofs.Register.Reading
import Bitfield.Proofs.Buffer.Access
import Bitfield.Form.Operation
import Bitfield.Proofs.Form.Padding
import Bitfield.Proofs.Register.Storing
import Bitfield.Proofs.Register.Opposite
import Bitfield.Proofs.Register.Lens
import Bitfield.Proofs.Wire.Gathering
import Bitfield.Proofs.Wire.Interruption
import Bitfield.Proofs.Wire.Frontier
import Bitfield.Proofs.Text.Numeral
import Bitfield.Proofs.Wire.Surplus
import Bitfield.Proofs.Text.Display
import Bitfield.Proofs.Wire.Log
import Bitfield.Proofs.Word.Mask
import Bitfield.Proofs.Word.Extension
import Bitfield.Proofs.IntType.Bytes
import Bitfield.Proofs.Register.Acceptance
