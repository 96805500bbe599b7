import ResultCache.Main
import ResultCache.Proofs.Ranker.Recording
import ResultCache.Proofs.Ranker.Replaying
import ResultCache.Proofs.Table.Soundness
import ResultCache.Query.Json
import ResultCache.Proofs.Query.Fingerprints
import ResultCache.Proofs.Ranker.Offering
import ResultCache.Proofs.Ranker.Listing
import ResultCache.Proofs.Ranker.WrongLength
import ResultCache.Proofs.Ranker.Forwarding
import ResultCache.Proofs.Search.Service
import ResultCache.Proofs.Search.Transparency
import ResultCache.Proofs.Search.Freshness
import ResultCache.Proofs.Search.Simulation
import ResultCache.Proofs.Table.Answering
import ResultCache.Proofs.Table.Attribution
import ResultCache.Proofs.Table.Counting
import ResultCache.Proofs.Table.Inclusion
import ResultCache.Proofs.Number.Decimal
import ResultCache.Proofs.Stream.InPlace
import ResultCache.Proofs.Stream.Framing
import ResultCache.Proofs.Table.Reuse
import ResultCache.Proofs.Ranker.Spending
import ResultCache.Proofs.Report.Outline
import ResultCache.Proofs.Json.Records
import ResultCache.Proofs.Number.Rounding
import ResultCache.Proofs.Report.ByteUnits
import ResultCache.Proofs.Stream.Zigzag
