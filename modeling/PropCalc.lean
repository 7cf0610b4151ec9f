import PropCalc.FileTree
import PropCalc.Main
import PropCalc.Proofs.Derivation.Truth
import PropCalc.Proofs.Parsing.RoundTrip
import PropCalc.Proofs.Parsing.Diagnosis
import PropCalc.Proofs.Rule.Reversal
import PropCalc.Proofs.Derivation.Links
import PropCalc.Proofs.Chain.Certified
import PropCalc.Proofs.Rule.HandOver
import PropCalc.Proofs.Json.Formula
import PropCalc.Proofs.Json.Rule
import PropCalc.Proofs.Json.Derivation
import PropCalc.Proofs.Catalog.Saving
import PropCalc.Proofs.Chain.Replay
import PropCalc.Proofs.Rule.Postcondition
import PropCalc.Proofs.Rule.Renaming
import PropCalc.Proofs.Rule.Stability
import PropCalc.Proofs.Rule.Introduced
import PropCalc.Proofs.Catalog.Applicable
import PropCalc.Proofs.Parsing.Spacing
import PropCalc.Proofs.Catalog.Malformed
import PropCalc.Proofs.Listing.Csv
import PropCalc.Proofs.Substitution.Store
import PropCalc.Proofs.Json.Application
import PropCalc.Proofs.Listing.Table
import PropCalc.Proofs.Formula.Walk
import PropCalc.Proofs.Formula.Addressing
import PropCalc.Proofs.Substitution.Composition
