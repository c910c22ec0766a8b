import ProductLock.Bound.Roundtrip
import ProductLock.Dependency.Valid
import ProductLock.Main
import ProductLock.Proofs.VersionPrecedence
import ProductLock.Proofs.BoundGrammar
import ProductLock.Proofs.BoundInclusion
import ProductLock.Proofs.VersionGrammar
import ProductLock.Proofs.CatalogMembership
import ProductLock.Proofs.DependencyText
import ProductLock.Proofs.MergeChoice
import ProductLock.Proofs.MergeIntersection
import ProductLock.Proofs.MergeOrder
import ProductLock.Proofs.MergeOutcome
import ProductLock.Proofs.MergeConflict
import ProductLock.Proofs.MergeAbsorption
import ProductLock.Proofs.MergeExtension
import ProductLock.Proofs.MergeSuccess
import ProductLock.Proofs.MergeTree
import ProductLock.Proofs.LockEntry
import ProductLock.Proofs.LockReading
import ProductLock.Proofs.LockAcceptance
import ProductLock.Proofs.LockRoundtrip
import ProductLock.Proofs.LockCanonical
import ProductLock.Proofs.LockIdentity
import ProductLock.Proofs.LockVersionChange
import ProductLock.Proofs.SoundDependency
import ProductLock.Proofs.ResolutionSteps
import ProductLock.Proofs.ResolutionContents
import ProductLock.Proofs.ResolutionEntries
import ProductLock.Proofs.ResolutionFailure
import ProductLock.Proofs.ResolutionOrder
import ProductLock.Proofs.ResolutionRedundancy
import ProductLock.Proofs.ResolutionIdempotence
import ProductLock.Proofs.ResolutionNotes
import ProductLock.Proofs.AscendingSearch
import ProductLock.Proofs.ResolutionPrecedence
import ProductLock.Proofs.PathSegments
import ProductLock.Proofs.FileLookup
import ProductLock.Proofs.FileWriting
import ProductLock.Proofs.ProjectSteps
import ProductLock.Proofs.LockAndCheck
import ProductLock.Proofs.LockReplacement
import ProductLock.Proofs.Circulation
import ProductLock.Proofs.ProductNaming
import ProductLock.Proofs.JsonTokens
import ProductLock.Proofs.JsonValues
import ProductLock.Proofs.ManifestReading
import ProductLock.Proofs.DependencySession
import ProductLock.Proofs.LockDrift
import ProductLock.Proofs.CheckReport
