import NumericTower.Json.Parser
import NumericTower.Flonum.Bits
import NumericTower.Proofs.Canonical.Registers
import NumericTower.Proofs.Number.Order
import NumericTower.Proofs.Number.RoundTrip
import NumericTower.Proofs.Number.Tagged
import NumericTower.Proofs.Operator.CutOff
import NumericTower.Proofs.Operator.PowerLimit
import NumericTower.Proofs.Operator.Round
import NumericTower.Proofs.Operator.PowerExact
import NumericTower.Proofs.Operator.ShiftOpposite
import NumericTower.Proofs.Operator.FloorDivision
import NumericTower.Proofs.Operator.BitwiseExact
import NumericTower.Proofs.Operator.ModuloRounded
import NumericTower.Proofs.Operator.Extremum
import NumericTower.Proofs.Operator.FloorFamily
import NumericTower.Proofs.Operator.RootError
import NumericTower.Proofs.Number.Grammar
import NumericTower.Proofs.Number.Conversion
import NumericTower.Proofs.Number.Reading
import NumericTower.Proofs.Operator.Difference
import NumericTower.Proofs.Number.BignumDigits
import NumericTower.Proofs.Fixnum.Overflow
import NumericTower.Proofs.Operator.Precondition
