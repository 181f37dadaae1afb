import Calculator.Main
import Calculator.Tree.Copy
import Calculator.Tree.Equality
import Calculator.Tree.Outline
import Calculator.Proofs.ChainOperations
import Calculator.Proofs.CorrectPrefix
import Calculator.Proofs.Decoding
import Calculator.Proofs.NestedFactors
import Calculator.Proofs.OnePass
import Calculator.Proofs.OutlineReading
import Calculator.Proofs.Output
import Calculator.Proofs.Progress
import Calculator.Proofs.Pushback
import Calculator.Proofs.RationalResults
import Calculator.Proofs.Regrouping
import Calculator.Proofs.Rerunning
