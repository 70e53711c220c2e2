import LightTree.Main
import LightTree.Number.Decimal
import LightTree.Tree.Operation
import LightTree.Tree.Summary
import LightTree.Descriptor.Parse
import LightTree.Proofs.Settlement
import LightTree.Proofs.Acyclicity
import LightTree.Proofs.Listeners
import LightTree.Proofs.Hierarchy
import LightTree.Proofs.Staffing
import LightTree.Proofs.Naming
import LightTree.Proofs.Atomicity
import LightTree.Proofs.Descriptors
import LightTree.Proofs.Rereading
import LightTree.Proofs.Twins
import LightTree.Proofs.Legibility
import LightTree.Proofs.Provenance
import LightTree.Proofs.Commutation
import LightTree.Proofs.Reversal
import LightTree.Proofs.Locality
import LightTree.Proofs.Relocation
import LightTree.Proofs.Resizing
import LightTree.Proofs.Grammar
import LightTree.Proofs.Requirements
import LightTree.Proofs.Creation
import LightTree.Proofs.Rejections
import LightTree.Proofs.Descent
import LightTree.Proofs.Depth
import LightTree.Proofs.Notices
import LightTree.Proofs.Composition
import LightTree.Proofs.JsonForms
import LightTree.Proofs.Searching
import LightTree.Proofs.Sufficiency
