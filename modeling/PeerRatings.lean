import PeerRatings.Arithmetic.Exact
import PeerRatings.Journal
import PeerRatings.Normalization.Method
import PeerRatings.Predictor
import PeerRatings.Proofs.Normalization.CutShort
import PeerRatings.Proofs.Prediction.ItemIndependence
import PeerRatings.StaticFinder.Search
import PeerRatings.Proofs.Prediction.Refusals
import PeerRatings.Proofs.Prediction.Recommendations
import PeerRatings.Proofs.Arithmetic.Rounding
import PeerRatings.Proofs.Arithmetic.Unpacked
import PeerRatings.Proofs.Arithmetic.Operations
import PeerRatings.Proofs.Arithmetic.Packing
import PeerRatings.Proofs.Arithmetic.Doubles
import PeerRatings.Proofs.Arithmetic.Order
import PeerRatings.Proofs.StaticFinder.Choice
import PeerRatings.Proofs.Prediction.Averages
import PeerRatings.Proofs.Prediction.FiniteScores
import PeerRatings.Proofs.Prediction.Influence
import PeerRatings.Proofs.Prediction.Merging
import PeerRatings.Proofs.Neighborhoods.Histories
import PeerRatings.Proofs.Vectors.FiniteMap
import PeerRatings.Proofs.Vectors.Pairs
import PeerRatings.Proofs.Vectors.Columns
import PeerRatings.Proofs.RatingTable.Grouping
import PeerRatings.Proofs.RatingTable.Replacements
import PeerRatings.Proofs.Prediction.OrderIndependence
import PeerRatings.Proofs.Prediction.KnownRatings
import PeerRatings.Proofs.Prediction.NoPrediction
import PeerRatings.Proofs.Prediction.Requests
import PeerRatings.Proofs.Prediction.WithinRatings
import PeerRatings.Proofs.RatingTable.Lists
import PeerRatings.Proofs.Rankings
import PeerRatings.Proofs.Arithmetic.Roots
import PeerRatings.Proofs.Normalization.Spread
import PeerRatings.Proofs.Normalization.EqualRatings
import PeerRatings.Proofs.Normalization.FiniteShifts
import PeerRatings.Proofs.Arithmetic.Sums
import PeerRatings.Proofs.Arithmetic.Readings
import PeerRatings.Proofs.Normalization.InPlace
import PeerRatings.Proofs.Normalization.OneMean
import PeerRatings.Proofs.StaticFinder.Builds
